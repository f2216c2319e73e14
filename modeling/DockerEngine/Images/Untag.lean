import DockerEngine.Images.Delete

/-!
# Deleting references

Two ways to lose references of the tag store, with the local forms that the registry gives to names.

`TagStore.DeleteAll` deletes the references of an image by their texts, which it splits at the colons. The
texts of digests and of repositories on a port are split in the wrong place, and a repository that is not
its own local form is looked for under another name: `deleteAll_exact_iff` says that the references of an
image are deleted, and no others, exactly when it has none of these.

`ImageDelete` takes a name that is part of the id of the image for an id, and then deletes all references
of the image: `imageDelete_one_iff` says that a call by reference deletes just this reference unless that
happens, and then only if the references of the image lead to no other.
-/

namespace DockerEngine.Images

open Filepath Repositories List Proc

/-! ## The pieces of a reference -/

/-- The first two pieces of a name that is split at its colons. -/
def firstPieces (name : Str) : Str × Str := ((name.splitOn ':').getD 0 [], (name.splitOn ':').getD 1 [])

section Pieces

variable {r : Ref} {a b ref : Str}

theorem firstPieces_append (ha : ':' ∉ a) : firstPieces (a ++ ':' :: b) = (a, (b.splitOn ':').headD []) := by
  rw [firstPieces, Words.splitOn_cons ha]
  cases b.splitOn ':' <;> rfl

theorem colon_not_mem_firstPieces (name : Str) : ':' ∉ (firstPieces name).1 ∧ ':' ∉ (firstPieces name).2 := by
  have hpiece : ∀ n, ':' ∉ (name.splitOn ':').getD n [] := by
    intro n
    rw [getD_eq_getElem?_getD]
    cases hn : (name.splitOn ':')[n]? with
    | none => simp
    | some piece => exact Words.not_mem_of_mem_splitOn (mem_of_getElem? hn)
  exact ⟨hpiece 0, hpiece 1⟩

theorem colon_mem_text (r : Ref) : ':' ∈ r.text := by
  unfold Ref.text imageReference digestReference
  split
  next h =>
    have hmem : ':' ∈ r.tag := by simpa using h
    simp [hmem]
  · simp

/-- A tag in a repository without a port is read back. -/
theorem firstPieces_tag (hrepo : ':' ∉ r.repo) (htag : ':' ∉ r.tag) : firstPieces r.text = (r.repo, r.tag) := by
  rw [Ref.text, imageReference, digestReference, if_neg (by simpa using htag), firstPieces_append hrepo,
    splitOn_eq_singleton htag]
  rfl

theorem validTagName_colon (h : validTagName ref) : ref ≠ [] ∧ ':' ∉ ref := by
  have hcolon : isWord ':' = false := by decide
  cases ref with
  | nil => cases h
  | cons c cs =>
    simp only [validTagName, Bool.and_eq_true, all_eq_true] at h
    refine ⟨cons_ne_nil _ _, fun hmem => ?_⟩
    rcases mem_cons.mp hmem with rfl | hmem
    · rw [hcolon] at h
      cases h.1.1
    · have hc := h.2 _ hmem
      revert hc
      decide

theorem validDigest_cut (h : validDigest ref) :
    ∃ algorithm hex, ref = algorithm ++ ':' :: hex ∧ ':' ∉ algorithm ∧ ':' ∉ hex ∧ hex ≠ [] := by
  unfold validDigest at h
  split at h
  next algorithm hex hsplit =>
    simp only [Bool.and_eq_true, decide_eq_true_eq] at h
    have hpiece : ∀ piece ∈ [algorithm, hex], ':' ∉ piece := by
      rw [← hsplit]
      exact fun piece => Words.not_mem_of_mem_splitOn
    refine ⟨algorithm, hex, ?_, hpiece _ (by simp), hpiece _ (by simp), h.1.1.2⟩
    simpa [intercalate, intersperse] using (Words.splitOn_eq_iff.mp hsplit).2.2
  · cases h

theorem validRef_ne_nil (h : validRef ref) : ref ≠ [] := by
  rintro rfl
  revert h
  decide

/-- Of a reference in a repository without a port, something is behind the first colon. -/
theorem firstPieces_snd_ne_nil (hrepo : ':' ∉ r.repo) (hvalid : validRef r.tag) : (firstPieces r.text).2 ≠ [] := by
  rcases (Bool.or_eq_true _ _).mp hvalid with htag | hdigest
  · obtain ⟨hne, hcolon⟩ := validTagName_colon htag
    rwa [firstPieces_tag hrepo hcolon]
  obtain ⟨algorithm, hex, htag, halgorithm, hhex, hne⟩ := validDigest_cut hdigest
  have hdig : digestReference r.tag := by
    rw [htag, digestReference]
    simp
  have hfront : ':' ∉ r.repo ++ '@' :: algorithm := by simp [hrepo, halgorithm]
  have htext : r.text = (r.repo ++ '@' :: algorithm) ++ ':' :: hex := by
    rw [Ref.text, imageReference, if_pos hdig, htag]
    simp
  rw [htext, firstPieces_append hfront, splitOn_eq_singleton hhex]
  exact hne

end Pieces

/-! ## Deleting one after the other -/

/-- Names that are deleted one after the other. -/
def deleteEach (N : Naming) (xs : List (Str × Str)) : Proc Repositories NoSuchRepository Unit :=
  xs.forM fun x => do
    let _ ← delete N x.1 x.2

/-- The name leads to the reference. -/
def Leads (N : Naming) (x : Str × Str) (r : Ref) : Prop := r.repo = N.normalizeLocalName x.1 ∧ r.tag = x.2

section DeleteEach

variable {N : Naming} {t : Repositories} {r : Ref} {id : Str} {xs : List (Str × Str)}

/-- The references of the image are deleted by the first two pieces of their texts. -/
theorem deleteAll_eq (N : Naming) (id : Str) (t : Repositories) :
    deleteAll N id t = deleteEach N ((t.byID id).map firstPieces) t := by
  have hcolon : ∀ name ∈ t.byID id, name.contains ':' := by
    intro name hname
    obtain ⟨r, -, -, rfl⟩ := mem_byID.mp hname
    simpa using colon_mem_text r
  rw [deleteAll, read_bind_run, deleteEach]
  generalize t.byID id = names at hcolon ⊢
  apply congrFun
  induction names with
  | nil => rfl
  | cons name names ih =>
    show (ite _ _ _ >>= fun _ => names.forM _) =
      ((delete N _ _ >>= fun _ => pure ()) >>= fun _ => (names.map firstPieces).forM _)
    rw [ih (forall_mem_cons.mp hcolon).2, if_pos (hcolon name mem_cons_self)]
    rfl

/-- A reference that the name does not lead to stays. -/
theorem delete_spares {x : Str × Str} (h : ¬ (r.repo = N.normalizeLocalName x.1 ∧ (x.2 = [] ∨ r.tag = x.2))) :
    Preserves (fun t => r ∈ t.refs) (delete N x.1 x.2) := by
  apply Triple.of_snd
  intro t hr
  unfold delete
  dsimp only
  split
  next hnil => exact mem_restrict.mpr ⟨hr, decide_eq_true fun hrepo => h ⟨hrepo, .inl hnil⟩⟩
  · split
    · exact hr
    · exact mem_restrict.mpr ⟨hr, decide_eq_true fun hkey => h ⟨hkey.1, .inr hkey.2⟩⟩

/-- What is lost, one of the names led to. -/
theorem deleteEach_lost (hr : r ∈ t.refs) (h : r ∉ (deleteEach N xs t).2.refs) :
    ∃ x ∈ xs, r.repo = N.normalizeLocalName x.1 ∧ (x.2 = [] ∨ r.tag = x.2) := by
  by_contra hnot
  have hkeeps : Preserves (fun t => r ∈ t.refs) (deleteEach N xs) := by
    apply Triple.forM
    intro x hx
    exact (delete_spares fun hhit => hnot ⟨x, hx, hhit⟩).bind fun _ => .pure _ fun _ h => h
  exact h (hkeeps.snd hr)

/-- References that are there are deleted one after the other. -/
theorem deleteEach_present (hnodup : xs.Nodup) (hpresent : ∀ x ∈ xs, Present N t.refs x) :
    (deleteEach N xs t).1 = .ok () ∧
      ∀ r, r ∈ (deleteEach N xs t).2.refs ↔ r ∈ t.refs ∧ refName r ∉ xs := by
  have hone : ∀ refs s, N.normalizeLocalName s.repo = s.repo → s.tag ≠ [] → s ∈ refs →
      Triple (fun t : Repositories => t.refs = refs) (do let _ ← delete N s.repo s.tag)
        (fun _ t => t.refs = refs.filter fun r' => refName r' ≠ refName s) fun _ => False := by
    refine fun refs s hrepo htag hs => .of_run fun t ht => ?_
    subst ht
    obtain ⟨t', hdelete, hleft⟩ := delete_refName hrepo htag hs
    exact ⟨(), t', bind_run_ok hdelete, hleft⟩
  obtain ⟨u, t', hrun, hleft⟩ := (forM_present (m := fun x => do let _ ← delete N x.1 x.2) (H := fun refs t => t.refs = refs) hone
    hnodup hpresent).run (s := t) rfl
  have hrun : deleteEach N xs t = (.ok (), t') := hrun
  refine ⟨by rw [hrun], fun r => ?_⟩
  rw [hrun, hleft, mem_filter, decide_eq_true_iff]

end DeleteEach

/-! ## All references of an image -/

/-- A map on a finite set that makes every element it moves smaller, and reaches all elements, moves none. -/
theorem fixed_of_covered {α : Type} [DecidableEq α] {S : List α} {f : α → α} (weight : α → Nat)
    (hcover : ∀ a ∈ S, ∃ b ∈ S, f b = a) (hsmaller : ∀ b ∈ S, f b ≠ b → weight (f b) < weight b) :
    ∀ a ∈ S, f a = a := by
  by_contra hnot
  obtain ⟨a₀, ha₀, hmoved₀⟩ : ∃ a ∈ S, f a ≠ a := by simpa using hnot
  -- the largest element that is moved is reached from a larger one, which is moved as well
  obtain ⟨a, ha, hmax⟩ := (S.toFinset.filter fun a => f a ≠ a).exists_max_image weight
    ⟨a₀, by simp [ha₀, hmoved₀]⟩
  rw [Finset.mem_filter, mem_toFinset] at ha
  obtain ⟨b, hb, hba⟩ := hcover a ha.1
  have hmoved : f b ≠ b := by
    intro hfix
    rw [hba] at hfix
    exact ha.2 (hfix ▸ hba)
  have hle := hmax b (by simp [hb, hmoved])
  have hlt := hsmaller b hb hmoved
  rw [hba] at hlt
  omega

/-- The reference is found again from its text: it is a tag, its repository has no port and is its own local
form. -/
structure SplitRight (r : Ref) : Prop where
  repo : ':' ∉ r.repo
  tag : ':' ∉ r.tag
  localForm : Registry.normalizeLocalName r.repo = r.repo

/-- **When `DeleteAll` deletes the references of an image and no others.** -/
theorem deleteAll_exact_iff (t : Repositories) (hvalid : ∀ r ∈ t.refs, validRef r.tag = true) (id : Str) :
    ((deleteAll registryNaming id t).1 = .ok () ∧
        ∀ r, r ∈ (deleteAll registryNaming id t).2.refs ↔ r ∈ t.refs ∧ r.id ≠ id) ↔
      ∀ r ∈ t.refs, r.id = id → SplitRight r := by
  rw [deleteAll_eq]
  constructor
  · rintro ⟨-, hleft⟩
    -- each reference of the image was reached from one of them
    have hreached : ∀ r ∈ t.refs, r.id = id → ∃ s ∈ t.refs, s.id = id ∧
        r.repo = Registry.normalizeLocalName (firstPieces s.text).1 ∧
          ((firstPieces s.text).2 = [] ∨ r.tag = (firstPieces s.text).2) := by
      intro r hr hid
      obtain ⟨x, hx, hhit⟩ := deleteEach_lost hr fun hmem => ((hleft r).mp hmem).2 hid
      obtain ⟨name, hname, rfl⟩ := mem_map.mp hx
      obtain ⟨s, hs, hsid, rfl⟩ := mem_byID.mp hname
      exact ⟨s, hs, hsid, hhit⟩
    have hrepo : ∀ r ∈ t.refs, r.id = id → ':' ∉ r.repo := by
      intro r hr hid hcolon
      obtain ⟨s, -, -, hrs, -⟩ := hreached r hr hid
      rw [hrs] at hcolon
      exact (colon_not_mem_firstPieces s.text).1 ((Registry.normalizeLocalName_end _).subset hcolon)
    have htag : ∀ r ∈ t.refs, r.id = id → ':' ∉ r.tag := by
      intro r hr hid
      obtain ⟨s, hs, hsid, -, hrs⟩ := hreached r hr hid
      rw [hrs.resolve_left (firstPieces_snd_ne_nil (hrepo s hs hsid) (hvalid s hs))]
      exact (colon_not_mem_firstPieces s.text).2
    have hfixed := @fixed_of_covered _ _ ((t.refs.filter fun r => r.id = id).map refName)
      (fun x => (Registry.normalizeLocalName x.1, x.2)) (fun x => x.1.length) ?_ ?_
    · intro r hr hid
      refine ⟨hrepo r hr hid, htag r hr hid, ?_⟩
      have hr' := hfixed (refName r) (mem_map_of_mem (mem_filter.mpr ⟨hr, by simpa using hid⟩))
      exact (Prod.ext_iff.mp hr').1
    · intro x hx
      obtain ⟨r, hr, rfl⟩ := mem_map.mp hx
      rw [mem_filter, decide_eq_true_iff] at hr
      obtain ⟨s, hs, hsid, hrs⟩ := hreached r hr.1 hr.2
      rw [firstPieces_tag (hrepo s hs hsid) (htag s hs hsid)] at hrs
      refine ⟨refName s, mem_map_of_mem (mem_filter.mpr ⟨hs, by simpa using hsid⟩), ?_⟩
      exact Prod.ext hrs.1.symm (hrs.2.resolve_left (validRef_ne_nil (hvalid s hs))).symm
    · intro x _ hmoved
      have hend := Registry.normalizeLocalName_end x.1
      apply lt_of_le_of_ne hend.length_le
      exact fun hlen => hmoved (Prod.ext (hend.eq_of_length hlen) rfl)
  · intro hright
    have hperm : ((t.byID id).map firstPieces).Perm ((t.refs.filter fun r => r.id = id).map refName) := by
      refine ((perm_insertionSort _ _).map _).trans (List.Perm.of_eq ?_)
      rw [map_map]
      apply map_congr_left
      intro r hr
      rw [mem_filter, decide_eq_true_iff] at hr
      have hr' := hright r hr.1 hr.2
      exact firstPieces_tag hr'.repo hr'.tag
    have hnodup : ((t.byID id).map firstPieces).Nodup := by
      rw [hperm.nodup_iff]
      exact t.nodup.sublist (filter_sublist.map _)
    have hpresent : ∀ x ∈ (t.byID id).map firstPieces, Present registryNaming t.refs x := by
      intro x hx
      obtain ⟨r, hr, rfl⟩ := mem_map.mp (hperm.mem_iff.mp hx)
      rw [mem_filter, decide_eq_true_iff] at hr
      exact ⟨r, hr.1, rfl, (hright r hr.1 hr.2).localForm, validRef_ne_nil (hvalid r hr.1)⟩
    obtain ⟨hok, hleft⟩ := @deleteEach_present registryNaming t _ hnodup hpresent
    refine ⟨hok, fun r => ?_⟩
    rw [hleft, hperm.mem_iff]
    refine and_congr_right fun hr => not_congr ⟨fun hmem => ?_, fun hid => ?_⟩
    · obtain ⟨s, hs, hname⟩ := mem_map.mp hmem
      rw [mem_filter, decide_eq_true_iff] at hs
      rw [← inj_on_of_nodup_map t.nodup hs.1 hr hname]
      exact hs.2
    · exact mem_map_of_mem (mem_filter.mpr ⟨hr, by simpa using hid⟩)

/-- Two tags of one image, and one of another. -/
def threeTags : Repositories where
  refs := [⟨"web".toList, "latest".toList, "1".toList⟩, ⟨"user/web".toList, "v2".toList, "1".toList⟩,
    ⟨"web".toList, "v1".toList, "2".toList⟩]
  nodup := by decide

theorem deleteAll_threeTags :
    (deleteAll registryNaming "1".toList threeTags).1 = .ok () ∧
      (⟨"web".toList, "v1".toList, "2".toList⟩ : Ref) ∈ (deleteAll registryNaming "1".toList threeTags).2.refs := by
  have hright : ∀ r ∈ threeTags.refs, r.id = "1".toList → SplitRight r := by
    have hall : ∀ r ∈ threeTags.refs, ':' ∉ r.repo ∧ ':' ∉ r.tag ∧ Registry.normalizeLocalName r.repo = r.repo := by
      decide +kernel
    intro r hr _
    exact ⟨(hall r hr).1, (hall r hr).2.1, (hall r hr).2.2⟩
  obtain ⟨hok, hleft⟩ := (deleteAll_exact_iff threeTags (by decide +kernel) "1".toList).mpr hright
  exact ⟨hok, (hleft _).mpr (by decide)⟩

/-- A repository on a port. -/
def onPort : Repositories := ⟨[⟨"localhost:5000/foo".toList, "latest".toList, "1".toList⟩], by decide⟩

/-- The reference is looked for in the repository `localhost`, and stays. -/
theorem deleteAll_onPort :
    (∀ r ∈ onPort.refs, validRef r.tag = true) ∧
      (deleteAll registryNaming "1".toList onPort).1 = .error ⟨"localhost".toList⟩ ∧
      (deleteAll registryNaming "1".toList onPort).2.refs = onPort.refs := by
  decide +kernel

/-! ## Calls that leave the tags alone -/

/-- No reference is read as one without a repository. -/
def Named (t : Repositories) : Prop := ∀ r ∈ t.refs, (parseRepositoryTag r.text).1 ≠ []

section Alone

variable {N : Naming} {O : MapOrder} {force noprune first : Bool} {p : Plan} {t : Repositories} {name : Str}

/-- The tag store of a call. -/
def HasTags (t : Repositories) (c : Call) : Prop := c.daemon.repositories = t

theorem named_text {r : Ref} (hne : r.repo ≠ []) (hat : r.repo.head? ≠ some '@') :
    (parseRepositoryTag r.text).1 ≠ [] := by
  obtain ⟨c, cs, hrepo⟩ := exists_cons_of_ne_nil hne
  have hc : c ≠ '@' := by
    rw [hrepo] at hat
    simpa using hat
  obtain ⟨rest, htext⟩ : ∃ rest, r.text = c :: rest := by
    unfold Ref.text imageReference
    rw [hrepo]
    split <;> exact ⟨_, rfl⟩
  unfold parseRepositoryTag
  split
  · rw [htext, takeWhile_cons_of_pos (by simpa using hc)]
    exact cons_ne_nil _ _
  split
  next hdigest _ =>
    dsimp only
    split
    · rw [htext]
      exact cons_ne_nil _ _
    -- what is before the last colon has the repository in it
    have htag : digestReference r.tag = false := by
      by_contra hyes
      rw [Bool.not_eq_false] at hyes
      rw [Ref.text, imageReference, if_pos hyes] at hdigest
      simp at hdigest
    have hcolon : ':' ∉ r.tag.reverse := by simpa [digestReference] using htag
    have hrev : r.text.reverse = r.tag.reverse ++ ':' :: r.repo.reverse := by
      rw [Ref.text, imageReference, if_neg (by simp [htag])]
      simp
    rw [hrev, (takeWhile_ne_append hcolon).2]
    simpa using hne
  · rw [htext]
    exact cons_ne_nil _ _

/-- The loop over references that are read with a repository ends with one, unless there are none. -/
theorem collect_named {repoName : Str} {m m' : List (Str × List Str)} {rs : List Str}
    (h : collect name first force repoName m rs = .ok ([], m'))
    (hrs : ∀ r ∈ rs, (parseRepositoryTag r).1 ≠ []) : rs = [] ∧ repoName = [] := by
  induction rs generalizing repoName m with
  | nil =>
    cases h
    exact ⟨rfl, rfl⟩
  | cons r rs ih =>
    have hr := hrs r mem_cons_self
    have hrest := fun r' hr' => hrs r' (mem_cons_of_mem r hr')
    rw [collect] at h
    split at h
    · exact absurd (ih h hrest).2 hr
    · split at h
      · cases h
      · exact absurd (ih h hrest).2 hr

/-- Where a plan ends without a repository, the image has no references. -/
theorem Plan.Fits.unnamed {d : Daemon} (h : p.Fits N d name first force) (hd : Named d.repositories)
    (hnil : p.repoName = []) : d.repositories.byID p.img.id = [] := by
  cases hby : p.deleteByID with
  | false => exact absurd hnil (h.byName hby).1
  | true =>
    have hcollect := (h.byID hby).2
    rw [hnil, h.repos] at hcollect
    refine (collect_named hcollect fun text htext => ?_).1
    obtain ⟨r, hr, -, rfl⟩ := mem_byID.mp htext
    exact hd r hr

theorem removeImage_tags {id : Str} (ht : t.byID id = []) : Preserves (HasTags t) (removeImage N id) := by
  have htags : Preserves (HasTags t) (onTags (deleteAll N id)) := by
    apply Triple.of_snd
    intro c hc
    show (deleteAll N id c.daemon.repositories).2 = t
    rw [show c.daemon.repositories = t from hc, deleteAll_nil ht]
  have hgraph : Preserves (HasTags t) (onGraph (Graph.delete id)) := Triple.of_snd fun _ hc => hc
  refine htags.mapError.bind fun _ => hgraph.mapError.bind fun _ => ?_
  exact .of_snd fun _ hc => hc

/-- The last part leaves the tags alone when the image has no references, or a repository. -/
theorem finish_tags {next : Proc Call Err Unit} (hp : p.repoName = [] → t.byID p.img.id = [])
    (hnext : Preserves (HasTags t) next) :
    Preserves (HasTags t) (finish N noprune first p next) := by
  refine .read_bind fun tags => ?_
  split
  next htags =>
    split
    · intro c hc
      obtain ⟨hc, hread⟩ := hc
      have hnil : t.byID p.img.id = [] := by
        rcases htags with ⟨-, hrepo⟩ | hlen
        · exact hp hrepo
        · rw [← show c.daemon.repositories = t from hc, hread]
          exact length_eq_zero_iff.mp hlen
      refine ((removeImage_tags hnil).bind fun _ => ?_) c hc
      split
      · split
        · exact hnext
        · exact hnext.ignoreError
      · exact .pure _ fun _ h => h
    · exact .pure _ fun _ h => h.1
  · exact .pure _ fun _ h => h.1

/-- **A call for a parent leaves the tags alone.** -/
theorem imgDeleteHelper_tags (ht : Named t) (n : Nat) (name : Str) : Preserves (HasTags t)
    (imgDeleteHelper N O force noprune n name false) := by
  induction n generalizing name with
  | zero => exact .fail _ fun _ h => h
  | succ n ih =>
    refine .read_bind fun d => ?_
    split
    · exact .fail _ fun _ h => h.1
    next p hplan =>
      split
      · exact .pure _ fun _ h => h.1
      next hnil =>
        have hnone : p.repoAndTags = [] := by simpa using hnil
        split
        · exact .fail _ fun _ h => h.1
        intro c hc
        obtain ⟨hc, rfl⟩ := hc
        have hc' : c.daemon.repositories = t := hc
        have hfits := plan_fits hplan
        have huntag : untag N O p.repoAndTags = pure () := by
          rw [untag, hnone, perm_nil.mp (O.perm [])]
          rfl
        have hact := @finish_tags N noprune false p t _
          (fun hrepo => hc' ▸ hfits.unnamed (hc'.symm ▸ ht) hrepo) (ih p.img.parent)
        rw [act, huntag]
        exact hact c hc

end Alone

/-! ## One reference -/

section One

variable {N : Naming} {O : MapOrder} {force noprune : Bool} {p : Plan} {t : Repositories} {d : Daemon}
  {name : Str} {e : Ref} {R : Ref → Prop}

/-- The references of a call. -/
def HasRefs (R : Ref → Prop) (c : Call) : Prop := ∀ r, r ∈ c.daemon.repositories.refs ↔ R r

/-- Where names are untagged without an error, what they lead to is gone and the rest is there. -/
theorem untagOne_refs {x : Str × Str} (hx : x.2 ≠ []) : Triple (HasRefs R) (untagOne N x)
    (fun _ => HasRefs fun r => R r ∧ ¬ Leads N x r) (fun _ => True) := by
  have hdelete : Triple (HasRefs R) (onTags (delete N x.1 x.2))
      (fun _ => HasRefs fun r => R r ∧ ¬ Leads N x r) (fun _ => True) := by
    intro c hc
    refine ⟨fun b c' h r => ?_, fun _ _ _ => trivial⟩
    unfold onTags delete at h
    dsimp only at h
    rw [if_neg hx] at h
    split at h
    · cases h
    · cases h
      show r ∈ (restrict _ _).refs ↔ _
      rw [mem_restrict, decide_eq_true_iff, hc r]
      rfl
  refine hdelete.bind fun tagDeleted => ?_
  split
  · exact Triple.iff_ends.mpr fun _ hc => hc
  · exact .pure _ fun _ h => h

theorem untagEach_refs {xs : List (Str × Str)} (hxs : ∀ x ∈ xs, x.2 ≠ []) :
    Triple (HasRefs R) (xs.forM (untagOne N)) (fun _ => HasRefs fun r => R r ∧ ∀ x ∈ xs, ¬ Leads N x r)
      (fun _ => True) := by
  induction xs generalizing R with
  | nil =>
    refine .pure _ fun c hc r => ?_
    rw [hc r]
    simp
  | cons x xs ih =>
    refine (untagOne_refs (hxs x mem_cons_self)).bind fun _ => ?_
    refine (ih (forall_mem_cons.mp hxs).2).post fun _ c hc r => ?_
    rw [hc r]
    dsimp only
    rw [forall_mem_cons, and_assoc]

theorem mem_pairs_grouped {x : Str × Str} (ps : List (Str × Str)) : x ∈ pairs (grouped ps) ↔ x ∈ ps ∧ x.2 ≠ [] := by
  rw [(pairs_grouped ps).mem_iff, mem_filter, decide_eq_true_iff]

/-- What a plan wants untagged: the name that was given, or what the references of the image are read as. -/
theorem plan_targets (h : plan N d name true force = .ok p) :
    (¬ name <:+: p.img.id ∧ p.repoAndTags = [((parseRepositoryTag name).1, [orDefault (parseRepositoryTag name).2])]) ∨
      (repoNameOf name p.img = [] ∧
        p.repoAndTags = grouped ((d.repositories.byID p.img.id).map parseRepositoryTag)) := by
  have hfits := plan_fits h
  cases hby : p.deleteByID with
  | true =>
    obtain ⟨hrepo, hcollect⟩ := hfits.byID hby
    rw [hfits.repos] at hcollect
    exact .inr ⟨hrepo, collect_eq hcollect⟩
  | false =>
    left
    unfold plan at h
    dsimp only at h
    split at h
    · cases h
    split at h
    · cases h
    split at h
    · split at h
      · cases h
      · cases h
        cases hby
    next img _ hrepo =>
      cases h
      have hnot : ¬ name <:+: img.id := fun hpart => hrepo (if_pos hpart)
      exact ⟨hnot, by rw [repoNameOf, if_neg hnot]; rfl⟩

/-- A first call that returns has untagged what its plan wanted, and nothing else. -/
theorem imgDeleteHelper_untags (hd : Named d.repositories) {n : Nat} {list : List Deleted} {c : Call}
    (h : imgDeleteHelper N O force noprune (n + 1) name true ⟨d, list⟩ = (.ok (), c)) :
    ∃ p, plan N d name true force = .ok p ∧
      ∀ r, r ∈ c.daemon.repositories.refs ↔ r ∈ d.repositories.refs ∧ ∀ x ∈ pairs p.repoAndTags, ¬ Leads N x r := by
  rw [imgDeleteHelper, read_bind_run] at h
  rcases hplan : plan N d name true force with e | p
  · simp only [hplan] at h
    cases h
  refine ⟨p, rfl, ?_⟩
  simp only [hplan, Bool.true_eq_false, false_and, if_false] at h
  rcases hguard : (if p.asks = true then canDeleteImage N d p.img.id force else .ok ()) with e | u
  · simp only [hguard] at h
    cases h
  simp only [hguard] at h
  have htargets : ∀ x ∈ pairs p.repoAndTags, x.2 ≠ [] := by
    rcases plan_targets hplan with ⟨-, hone⟩ | ⟨-, hall⟩
    · intro x hx
      rw [hone] at hx
      obtain rfl : x = ((parseRepositoryTag name).1, orDefault (parseRepositoryTag name).2) := by
        simpa [pairs] using hx
      exact orDefault_ne_nil _
    · intro x hx
      rw [hall, mem_pairs_grouped] at hx
      exact hx.2
  have hpairs : ∀ x, x ∈ pairs (O.order p.repoAndTags) ↔ x ∈ pairs p.repoAndTags :=
    fun x => ((O.perm _).flatMap_right _).mem_iff
  have huntag := @untagEach_refs N (fun r => r ∈ d.repositories.refs) (pairs (O.order p.repoAndTags))
    fun x hx => htargets x ((hpairs x).mp hx)
  obtain ⟨u, c₁, hrun, h⟩ := bind_run_eq_ok h
  have hrefs := (huntag.mapError ⟨d, list⟩ fun _ => .rfl).1 u c₁ hrun
  have hwithin : Within d.repositories c₁.daemon.repositories := fun r hr => ((hrefs r).mp hr).1
  have hfits := plan_fits hplan
  have hleft : p.repoName = [] → c₁.daemon.repositories.byID p.img.id = [] := by
    intro hnil
    have hnone := byID_eq_nil.mp (hfits.unnamed hd hnil)
    exact byID_eq_nil.mpr fun r hr => hnone r (hwithin r hr)
  have hnext := @imgDeleteHelper_tags N O force noprune _ (fun r hr => hd r (hwithin r hr)) n p.img.parent
  have hsame : c.daemon.repositories = c₁.daemon.repositories := ((finish_tags hleft hnext) c₁ rfl).1 () c h
  intro r
  rw [hsame, hrefs r]
  simp only [hpairs]

/-- A name that leads to an entry is looked up there. -/
theorem lookupImage_entry {g : Graph} (he : e ∈ t.refs)
    (hleads : Leads N ((parseRepositoryTag name).1, orDefault (parseRepositoryTag name).2) e) :
    t.lookupImage N g name = g.get e.id := by
  have hfind : (t.refs.find? fun r => r.repo = N.normalizeLocalName (parseRepositoryTag name).1 ∧
      r.tag = orDefault (parseRepositoryTag name).2) = some e :=
    find?_of_key t.nodup he (by simp [hleads.1, hleads.2])
  simp only [lookupImage, getImage, hfind]
  cases g.get e.id <;> rfl

end One

/-- The references of the image, as they are written and read again, lead to this entry of the store and to no
other. -/
def LeadOnlyTo (N : Naming) (t : Repositories) (id : Str) (e : Ref) : Prop :=
  ∀ r ∈ t.refs, (∃ s ∈ t.refs, s.id = id ∧ (parseRepositoryTag s.text).2 ≠ [] ∧
    Leads N (parseRepositoryTag s.text) r) ↔ r = e

/-- **When a call by reference deletes just this reference.** -/
theorem imageDelete_one_iff (O : MapOrder) (d : Daemon)
    (hnames : ∀ r ∈ d.repositories.refs, r.repo ≠ [] ∧ r.repo.head? ≠ some '@') (name : Str)
    (force noprune : Bool) (e : Ref) (he : e ∈ d.repositories.refs)
    (hrepo : e.repo = Registry.normalizeLocalName (parseRepositoryTag name).1)
    (htag : e.tag = orDefault (parseRepositoryTag name).2) (list : List Deleted) (d' : Daemon)
    (h : imageDelete registryNaming O name force noprune d = (.ok list, d')) :
    (∀ r, r ∈ d'.repositories.refs ↔ r ∈ d.repositories.refs ∧ r ≠ e) ↔
      ∀ img, d.graph.get e.id = .ok img → name <:+: img.id → LeadOnlyTo registryNaming d.repositories img.id e := by
  have hd : Named d.repositories := fun r hr => named_text (hnames r hr).1 (hnames r hr).2
  have hleads : Leads registryNaming ((parseRepositoryTag name).1, orDefault (parseRepositoryTag name).2) e :=
    ⟨hrepo, htag⟩
  unfold imageDelete at h
  split at h
  · cases h
  next c hrun =>
    have hd' : d' = c.daemon := by
      split at h
      · cases h
      · cases h
        rfl
    obtain ⟨p, hplan, hrefs⟩ := imgDeleteHelper_untags hd hrun
    have hget : d.graph.get e.id = .ok p.img := by
      rw [← lookupImage_entry he hleads]
      exact (plan_fits hplan).found
    have himg : ∀ img, d.graph.get e.id = .ok img → img = p.img := by
      intro img himg
      rw [hget] at himg
      cases himg
      rfl
    rw [hd']
    rcases plan_targets hplan with ⟨hnot, hone⟩ | ⟨hbyID, hall⟩
    · refine ⟨fun _ img hi hpart => absurd (himg img hi ▸ hpart) hnot, fun _ r => ?_⟩
      rw [hrefs r, hone]
      refine and_congr_right fun hr => ?_
      have hpairs : ∀ P : Str × Str → Prop, (∀ x ∈ pairs [((parseRepositoryTag name).1,
          [orDefault (parseRepositoryTag name).2])], P x) ↔
          P ((parseRepositoryTag name).1, orDefault (parseRepositoryTag name).2) := by
        intro P
        simp [pairs]
      rw [hpairs]
      refine not_congr ⟨fun hl => ?_, fun hre => hre ▸ hleads⟩
      apply inj_on_of_nodup_map d.repositories.nodup hr he
      rw [hl.1, hl.2, hleads.1, hleads.2]
    · have hpart : name <:+: p.img.id := by
        by_contra hnot
        rw [repoNameOf, if_neg hnot] at hbyID
        apply (hnames e he).1
        rw [hrepo, hbyID]
        exact suffix_nil.mp (Registry.normalizeLocalName_end [])
      have hreached : ∀ r, (∀ x ∈ pairs p.repoAndTags, ¬ Leads registryNaming x r) ↔
          ¬ ∃ s ∈ d.repositories.refs, s.id = p.img.id ∧ (parseRepositoryTag s.text).2 ≠ [] ∧
            Leads registryNaming (parseRepositoryTag s.text) r := by
        intro r
        rw [hall]
        constructor
        · rintro hx ⟨s, hs, hsid, hne, hl⟩
          refine hx (parseRepositoryTag s.text) ((mem_pairs_grouped _).mpr ⟨?_, hne⟩) hl
          exact mem_map_of_mem (mem_byID.mpr ⟨s, hs, hsid, rfl⟩)
        · intro hnone x hx hl
          rw [mem_pairs_grouped] at hx
          obtain ⟨text, htext, rfl⟩ := mem_map.mp hx.1
          obtain ⟨s, hs, hsid, rfl⟩ := mem_byID.mp htext
          exact hnone ⟨s, hs, hsid, hx.2, hl⟩
      constructor
      · intro hexact img hi _ r hr
        rw [himg img hi]
        have hboth := hexact r
        rw [hrefs r, hreached r] at hboth
        exact not_iff_not.mp (and_congr_right_iff.mp hboth hr)
      · intro hcond r
        have honly := hcond p.img hget hpart
        rw [hrefs r, hreached r]
        exact and_congr_right fun hr => not_congr (honly r hr)

theorem baseImage_ids : ∀ i ∈ [baseImage 'a'], validID i.id := by decide

/-- An image with two tags in one repository. -/
def twoTags (repo : Str) : Daemon where
  graph := ⟨[baseImage 'a'], nodup_singleton _, baseImage_ids⟩
  repositories := ⟨[⟨repo, defaultTag, (baseImage 'a').id⟩, ⟨repo, "v1".toList, (baseImage 'a').id⟩], by
    have htag : defaultTag ≠ ['v', '1'] := by decide
    simpa using htag⟩
  containers := []
  held := []

theorem imageDelete_web :
    ∃ d', imageDelete registryNaming plainOrder "web".toList false false (twoTags "web".toList) =
        (.ok [.untagged "web:latest".toList], d') ∧
      (⟨"web".toList, "v1".toList, (baseImage 'a').id⟩ : Ref) ∈ d'.repositories.refs := by
  have hdelete : (imageDelete registryNaming plainOrder "web".toList false false (twoTags "web".toList)).1 =
      .ok [.untagged "web:latest".toList] := by decide +kernel
  obtain ⟨d', hd'⟩ : ∃ d', imageDelete registryNaming plainOrder "web".toList false false
      (twoTags "web".toList) = (.ok [.untagged "web:latest".toList], d') := ⟨_, Prod.ext hdelete rfl⟩
  have hone := imageDelete_one_iff plainOrder (twoTags "web".toList) (by decide) "web".toList false false
    ⟨"web".toList, defaultTag, (baseImage 'a').id⟩ (by decide) (by decide +kernel) (by decide) _ d' hd'
  refine ⟨d', hd', (hone.mpr (fun img hget hpart => ?_) _).mpr ⟨by decide, by decide⟩⟩
  have himg : img = baseImage 'a' := mem_singleton.mp (Graph.mem_of_get hget).1
  rw [himg] at hpart
  have hw : 'w' ∈ replicate 64 'a' := hpart.subset (by decide)
  exact absurd (eq_of_mem_replicate hw) (by decide)

/-- The name of the repository is part of the id of the image, and both tags go. -/
theorem imageDelete_a :
    (imageDelete registryNaming plainOrder "a".toList false false (twoTags "a".toList)).1 =
        .ok [.untagged "a:latest".toList, .untagged "a:v1".toList, .deleted (baseImage 'a').id] ∧
      (imageDelete registryNaming plainOrder "a".toList false false (twoTags "a".toList)).2.repositories.refs = [] := by
  decide +kernel

end DockerEngine.Images
