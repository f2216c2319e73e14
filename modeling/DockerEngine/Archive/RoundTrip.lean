import DockerEngine.Archive.Apply

/-!
# Layer diff and layer apply are inverse

For two directory trees, the layer that `ExportChanges` makes of `ChangesDirs(new, old)`, applied by
`UnpackLayer` to `old` at the root of a file system, gives `new`: the same paths, and at each path
the same object but for the modification time, of which a tar header keeps whole seconds.

The argument is one invariant over the sorted list of changes (`mixed`): at a path with a change
pending at it or above it the file system still shows the old tree, everywhere else it already shows
the final one. Sorting puts a directory's change before those below it, so when the turn of a change
comes nothing above it is pending, its parent directories are final, and all that is below it is
still old.

What is compared is what `statDifferent` cannot see: two files it calls equal are taken to have equal
content, as the comment in `addChanges` does.
-/

namespace DockerEngine.Archive

open Filepath Resolve UnixFs List Option NameTree Fs

/-! ## Directory trees -/

/-- A finite tree of directories, files and symbolic links: the names in a directory are distinct,
fit for a directory and do not begin like a whiteout, and only directories have children. -/
structure DirTree where
  tree : NameTree Str Obj
  root : tree.val.body = .dir
  wf : tree.All fun o ks => (ks.map Prod.fst).Nodup ∧ (∀ k ∈ ks, Proper k.1 ∧ NoWhiteout k.1) ∧
    (ks ≠ [] → o.body = .dir) ∧ Plain o

namespace DirTree

variable (d : DirTree) {p r : List Str} {o : Obj}

/-- The objects of the tree by position. -/
def map : FileMap := d.tree.look

theorem map_nil : d.map [] = some d.tree.val := look_nil _

theorem plain (h : d.map p = some o) : Plain o := by
  obtain ⟨t, ht, rfl⟩ := map_eq_some_iff.mp h
  exact (d.wf.get ht).here.2.2.2

/-- Above an object there is a directory. -/
theorem dirs (hr : r ≠ []) (h : d.map (p ++ r) ≠ none) : ∃ o, d.map p = some o ∧ o.body = .dir := by
  obtain ⟨o, ks, ho, hwf, hne⟩ := d.wf.above hr h
  exact ⟨o, ho, hwf.2.2.1 hne⟩

theorem names (h : d.map p ≠ none) : ∀ n ∈ p, Proper n ∧ NoWhiteout n :=
  All.names (d.wf.mono fun _ _ h => h.2.1) h

end DirTree

/-- The file infos collected from a directory: those of its files, in any order. -/
structure Collected (T : FileMap) (t : FileInfo) : Prop where
  wf : t.Wf
  root : t.val.isDir = true
  look : ∀ n r, t.look (n :: r) = (T (n :: r)).map infoOf

/-! ## What the comparison sees -/

theorem and_sIFDIR (n : Nat) : n &&& sIFDIR = if n / 2 ^ 14 % 2 = 1 then sIFDIR else 0 := by
  rw [show sIFDIR = 2 ^ 14 by rfl, Nat.and_two_pow, Nat.testBit_eq_decide_div_mod_eq]
  split <;> simp_all

theorem Plain.isDir {o : Obj} (h : Plain o) : (infoOf o).isDir ↔ o.body = .dir := by
  have hlt := o.perm.isLt
  show (statMode o &&& sIFDIR != 0) ↔ _
  rw [bne_iff_ne, and_sIFDIR, statMode]
  unfold Plain at h
  cases hb : o.body with
  | special mode rdev => rw [hb] at h; exact h.elim
  | dir =>
    have : (typeBits .dir + o.perm.val) / 2 ^ 14 % 2 = 1 := by simp only [typeBits, sIFDIR]; omega
    rw [if_pos this]; simp [sIFDIR]
  | file c =>
    have : ¬ (typeBits (.file c) + o.perm.val) / 2 ^ 14 % 2 = 1 := by
      simp only [typeBits, sIFREG]; omega
    rw [if_neg this]; simp
  | symlink t =>
    have : ¬ (typeBits (.symlink t) + o.perm.val) / 2 ^ 14 % 2 = 1 := by
      simp only [typeBits, sIFLNK]; omega
    rw [if_neg this]; simp

/-- Every directory tree can be collected. -/
theorem DirTree.collected (d : DirTree) : Collected d.map (d.tree.relabel (fun _ o => infoOf o) []) where
  wf := by
    refine FileInfo.wf_relabel (D := fun o => o.body = .dir) d.tree (d.wf.mono fun o ks h => ?_) []
      fun q o ho hb => (d.plain ho).isDir.mpr hb
    exact ⟨h.1, fun k hk => (h.2.1 k hk).1, h.2.2.1⟩
  root := by
    have hval : (d.tree.relabel (fun _ => infoOf) []).look [] = some (infoOf d.tree.val) := by
      rw [look_relabel, look_nil]; rfl
    rw [look_nil] at hval
    rw [some.inj hval]
    exact (d.plain d.map_nil).isDir.mpr d.root
  look n r := look_relabel _ _ _ _

/-- All of an object but its modification time. -/
def untimed (o : Obj) : Obj := { o with mtime := ⟨0, 0⟩ }

variable {a b : Obj}

theorem untimed_eq_iff : untimed a = untimed b ↔
    a.body = b.body ∧ a.perm = b.perm ∧ a.uid = b.uid ∧ a.gid = b.gid ∧ a.xattrs = b.xattrs := by
  simp [untimed]

theorem statDifferent_eq_false {a b : Stat} : statDifferent a b = false ↔ a.mode = b.mode ∧
    a.uid = b.uid ∧ a.gid = b.gid ∧ a.rdev = b.rdev ∧
    ((a.mode &&& sIFDIR) ≠ sIFDIR → sameFsTimeSpec a.mtim b.mtim ∧ a.size = b.size) := by
  simp only [statDifferent, Bool.or_eq_false_iff, bne_eq_false_iff_eq, Bool.and_eq_false_imp,
    bne_iff_ne, Bool.not_eq_false', and_assoc]

section

variable (ha : Plain a) (hb : Plain b)
include ha hb

theorem perm_inj (h : statMode a = statMode b) : a.perm = b.perm := by
  have hlt := a.perm.isLt
  have hlt' := b.perm.isLt
  have hbits : ∀ o : Obj, Plain o → typeBits o.body % 4096 = 0 := by
    intro o ho
    unfold Plain at ho
    cases hb : o.body with
    | special mode rdev => rw [hb] at ho; exact ho.elim
    | dir => simp [typeBits, sIFDIR]
    | file c => simp [typeBits, sIFREG]
    | symlink t => simp [typeBits, sIFLNK]
  have h₁ := hbits a ha
  have h₂ := hbits b hb
  unfold statMode at h
  exact Fin.ext (by omega)

theorem xattrs_inj (h : (infoOf a).capability = (infoOf b).capability) : a.xattrs = b.xattrs := by
  simp only [infoOf] at h
  rcases ha.xattrs with hx | ⟨v, hv, hx⟩ <;> rcases hb.xattrs with hy | ⟨w, hw, hy⟩ <;>
    simp only [hx, hy, lookup_nil, lookup_cons_self, getD_none, getD_some] at h ⊢
  · exact absurd h.symm hw
  · exact absurd h hv
  · rw [h]

section

variable (h : (infoOf a).differs (infoOf b) = false)
include h

/-- The comparison tells directories from the rest. -/
theorem dir_of_not_differs : a.body = .dir ↔ b.body = .dir := by
  obtain ⟨hmode, -⟩ := statDifferent_eq_false.mp (Bool.or_eq_false_iff.mp h).1
  rw [← ha.isDir, ← hb.isDir]
  show (statMode a &&& sIFDIR != 0) ↔ (statMode b &&& sIFDIR != 0)
  rw [show statMode a = statMode b from hmode]

/-- What is compared equal agrees in everything but the content and the time. -/
theorem untimed_of_not_differs
    (hcontent : a.body ≠ .dir → b.body ≠ .dir → a.body = b.body) : untimed a = untimed b := by
  obtain ⟨hstat, hcap⟩ := Bool.or_eq_false_iff.mp h
  obtain ⟨hmode, huid, hgid, -, -⟩ := statDifferent_eq_false.mp hstat
  have hperm := perm_inj ha hb hmode
  have hdir := dir_of_not_differs ha hb h
  have hbody : a.body = b.body := by
    by_cases h : a.body = .dir
    · rw [h, hdir.mp h]
    · exact hcontent h fun h' => h (hdir.mpr h')
  exact untimed_eq_iff.mpr ⟨hbody, hperm, huid, hgid, xattrs_inj ha hb (by simpa using hcap)⟩

end

end

/-- What agrees in everything but the time is compared equal, when the times are close enough. -/
theorem not_differs_of_untimed (ha : Plain a) (h : untimed a = untimed b)
    (ht : a.body ≠ .dir → sameFsTimeSpec a.mtime b.mtime) :
    (infoOf a).differs (infoOf b) = false := by
  obtain ⟨hbody, hperm, huid, hgid, hxattrs⟩ := untimed_eq_iff.mp h
  refine Bool.or_eq_false_iff.mpr ⟨statDifferent_eq_false.mpr ⟨?_, huid, hgid, ?_,
    fun hmode => ⟨ht fun hdir => hmode ?_, ?_⟩⟩, ?_⟩
  · show typeBits a.body + a.perm.val = typeBits b.body + b.perm.val
    rw [hbody, hperm]
  · show statRdev a.body = statRdev b.body
    rw [hbody]
  · have hbit := ha.isDir.mpr hdir
    have hne : statMode a &&& sIFDIR ≠ 0 := by simpa [Info.isDir, infoOf] using hbit
    show statMode a &&& sIFDIR = sIFDIR
    rw [and_sIFDIR] at hne ⊢
    split at hne
    next h1 => rw [if_pos h1]
    next => exact absurd rfl hne
  · show statSize a.body = statSize b.body
    rw [hbody]
  · simp only [infoOf, hxattrs, bne_self_eq_false]

/-! ## The changes between two trees -/

/-- The changes of a list, read as a statement about the files of the two trees. -/
structure Delta (old new : FileMap) (all : List Change) : Prop where
  ne_nil : ∀ c ∈ all, c.pos ≠ []
  put : ∀ c ∈ all, c.kind ≠ .delete → new c.pos ≠ none
  gone : ∀ c ∈ all, c.kind = .delete → new c.pos = none ∧ old c.pos ≠ none ∧
    ∃ d n o, c.pos = d ++ [n] ∧ new d = some o ∧ o.body = .dir
  put_mem : ∀ q, new q ≠ none → old q = none → ∃ c ∈ all, c.pos = q
  change_mem : ∀ q a b, q ≠ [] → old q = some a → new q = some b →
    (infoOf a).differs (infoOf b) = true → ∃ c ∈ all, c.pos = q
  gone_mem : ∀ d n o, new d = some o → o.body = .dir → new (d ++ [n]) = none →
    old (d ++ [n]) ≠ none → ∃ c ∈ all, c.pos = d ++ [n]
  nodup : (all.map Change.pos).Nodup

variable {t : FileInfo} {q : List Str}

theorem Collected.look_of_ne {T : FileMap} (h : Collected T t)
    (hq : q ≠ []) : t.look q = (T q).map infoOf := by
  cases q with
  | nil => exact absurd rfl hq
  | cons n r => exact h.look n r

theorem Collected.isDir_iff {d : DirTree} (h : Collected d.map t) :
    (∃ i, t.look q = some i ∧ i.isDir) ↔ ∃ o, d.map q = some o ∧ o.body = .dir := by
  by_cases hq : q = []
  · subst hq
    rw [look_nil, d.map_nil]
    exact ⟨fun _ => ⟨_, rfl, d.root⟩, fun _ => ⟨_, rfl, h.root⟩⟩
  · rw [h.look_of_ne hq]
    constructor
    · rintro ⟨i, hi, hd⟩
      obtain ⟨o, ho, rfl⟩ := map_eq_some_iff.mp hi
      exact ⟨o, ho, (d.plain ho).isDir.mp hd⟩
    · rintro ⟨o, ho, hb⟩
      exact ⟨infoOf o, by rw [ho]; rfl, (d.plain ho).isDir.mpr hb⟩

theorem delta_changes {old new : DirTree} {oldInfo newInfo : FileInfo}
    (hold : Collected old.map oldInfo) (hnew : Collected new.map newInfo) :
    Delta old.map new.map (changes newInfo oldInfo) := by
  have hmem : ∀ {p k}, ⟨p, k⟩ ∈ changes newInfo oldInfo ↔ p ≠ [] ∧ Reported newInfo.look oldInfo.look p k :=
    mem_changes hnew.wf.keyed
  have hlook : ∀ {q}, q ≠ [] → (newInfo.look q = none ↔ new.map q = none) ∧
      (oldInfo.look q = none ↔ old.map q = none) := fun hq => by
    rw [hnew.look_of_ne hq, hold.look_of_ne hq, map_eq_none_iff, map_eq_none_iff]
    exact ⟨Iff.rfl, Iff.rfl⟩
  refine ⟨fun c hc => (hmem.mp hc).1, fun c hc hk => ?_, fun c hc hk => ?_, fun q hn ho => ?_,
    fun q a b hq ha hb hd => ?_, fun d n o hd hb hn ho => ?_, changes_nodup hnew.wf.keyed hold.wf.keyed⟩
  · obtain ⟨hq, hreported⟩ := hmem.mp hc
    rw [ne_eq, ← (hlook hq).1]
    cases hkind : c.kind with
    | delete => exact absurd hkind hk
    | add =>
      rw [hkind] at hreported
      exact hreported.1
    | modify =>
      rw [hkind] at hreported
      obtain ⟨-, i, -, hi, -⟩ := hreported
      simp [hi]
  · obtain ⟨hq, hreported⟩ := hmem.mp hc
    rw [hk] at hreported
    obtain ⟨hn, habove, ho⟩ := hreported
    obtain ⟨d, n, hdn⟩ : ∃ d n, c.pos = d ++ [n] := ⟨_, _, (dropLast_append_getLast hq).symm⟩
    obtain ⟨o, hd, hb⟩ := hnew.isDir_iff.mp (habove d ⟨[n], hdn.symm⟩ fun h => by simp [← h] at hdn)
    exact ⟨(hlook hq).1.mp hn, fun h => ho ((hlook hq).2.mpr h), d, n, o, hdn, hd, hb⟩
  · have hq : q ≠ [] := by
      rintro rfl
      rw [old.map_nil] at ho
      cases ho
    refine ⟨⟨q, .add⟩, hmem.mpr ⟨hq, fun h => hn ((hlook hq).1.mp h), fun h => ?_⟩, rfl⟩
    exact h.2 ((hlook hq).2.mpr ho)
  · have hi : newInfo.look q = some (infoOf b) := by rw [hnew.look_of_ne hq, hb]; rfl
    have hj : oldInfo.look q = some (infoOf a) := by rw [hold.look_of_ne hq, ha]; rfl
    exact ⟨⟨q, .modify⟩, hmem.mpr ⟨hq, hnew.wf.dirsAbove hi, _, _, hi, hj, .inl hd⟩, rfl⟩
  · obtain ⟨i, hi, hdir⟩ := hnew.isDir_iff.mpr ⟨o, hd, hb⟩
    have hq : d ++ [n] ≠ [] := by simp
    refine ⟨⟨d ++ [n], .delete⟩, hmem.mpr ⟨hq, (hlook hq).1.mpr hn, ?_, fun h => ho ((hlook hq).2.mp h)⟩, rfl⟩
    exact (hnew.wf.dirsAbove hi).snoc hi hdir n

/-! ## The tree while the changes are applied -/

section Sequence

variable (old new : DirTree) (all : List Change)

/-- The tree when all changes are applied: the object of the new tree where there was a change, the
one of the old tree where there was none. -/
def finalMap : FileMap := fun q =>
  match new.map q with
  | none => none
  | some o => if q ∈ all.map Change.pos then some (tarred o) else old.map q

/-- The tree when the changes `pending` are left: what is at or below one of them is still old. -/
def mixed (pending : List Change) : FileMap := fun q =>
  if ∃ c ∈ pending, c.pos <+: q then old.map q else finalMap old new all q

theorem mixed_nil : mixed old new all [] = finalMap old new all := by
  funext q
  simp [mixed]

variable {old new all}

variable {q : List Str}

theorem finalMap_of_none (h : new.map q = none) : finalMap old new all q = none := by
  simp only [finalMap, h]

theorem finalMap_of_free (h : new.map q ≠ none) (hq : ∀ c ∈ all, c.pos ≠ q) : finalMap old new all q = old.map q := by
  obtain ⟨o, ho⟩ := ne_none_iff_exists'.mp h
  have hfree : q ∉ all.map Change.pos := by
    intro hmem
    obtain ⟨c, hc, hpos⟩ := mem_map.mp hmem
    exact hq c hc hpos
  simp only [finalMap, ho, if_neg hfree]

variable {o : Obj}

theorem finalMap_of_mem {c : Change} (hc : c ∈ all) (h : new.map c.pos = some o) :
    finalMap old new all c.pos = some (tarred o) := by
  simp only [finalMap, h, if_pos (mem_map_of_mem hc)]

variable (hΔ : Delta old.map new.map all)

include hΔ

/-- Where there was no change both trees have an object the comparison calls equal. -/
theorem old_of_free (hq : q ≠ []) (h : new.map q = some o) (hfree : ∀ c ∈ all, c.pos ≠ q) :
    ∃ a, old.map q = some a ∧ (infoOf a).differs (infoOf o) = false := by
  cases ho : old.map q with
  | none =>
    obtain ⟨c, hc, hpos⟩ := hΔ.put_mem q (by simp [h]) ho
    exact absurd hpos (hfree c hc)
  | some a =>
    refine ⟨a, rfl, ?_⟩
    by_contra hd
    obtain ⟨c, hc, hpos⟩ := hΔ.change_mem q a o hq ho h (by simpa using hd)
    exact hfree c hc hpos

/-- A directory of the new tree is one of the final tree. -/
theorem finalMap_dir (h : new.map q = some o) (hb : o.body = .dir) :
    ∃ a, finalMap old new all q = some a ∧ a.body = .dir := by
  by_cases hmem : ∃ c ∈ all, c.pos = q
  · obtain ⟨c, hc, rfl⟩ := hmem
    exact ⟨tarred o, finalMap_of_mem hc h, hb⟩
  have hfree : ∀ c ∈ all, c.pos ≠ q := fun c hc he => hmem ⟨c, hc, he⟩
  rw [finalMap_of_free (by simp [h]) hfree]
  by_cases hq : q = []
  · subst hq
    exact ⟨_, old.map_nil, old.root⟩
  · obtain ⟨a, ha, hd⟩ := old_of_free hΔ hq h hfree
    exact ⟨a, ha, (dir_of_not_differs (old.plain ha) (new.plain h) hd).mpr hb⟩

/-- Below a directory of both trees, on a way without changes, the final tree is the old one. -/
theorem finalMap_unchanged {p r : List Str} (hr : r ≠ []) (hnew : ∃ o, new.map p = some o ∧ o.body = .dir)
    (hfree : ∀ c ∈ all, ∀ s, s ≠ [] → s <+: r → c.pos ≠ p ++ s) :
    finalMap old new all (p ++ r) = old.map (p ++ r) := by
  by_cases hq : new.map (p ++ r) = none
  · rw [finalMap_of_none hq]
    by_contra hold
    -- on the way down the new tree has all the old one has, up to the end
    have hway : ∀ s, s <+: r → new.map (p ++ s) ≠ none := by
      intro s
      induction s using reverseRecOn with
      | nil =>
        intro _
        obtain ⟨o, ho, -⟩ := hnew
        simp [ho]
      | append_singleton s n ih =>
        intro hs
        have hs' : s <+: r := (prefix_append s [n]).trans hs
        obtain ⟨o, ho⟩ := ne_none_iff_exists'.mp (ih hs')
        have hthere : old.map (p ++ (s ++ [n])) ≠ none := by
          obtain ⟨t, rfl⟩ := hs
          by_cases ht : t = []
          · subst ht
            rw [append_nil] at hold
            exact fun h => hold h.symm
          · rw [← append_assoc p] at hold
            obtain ⟨a, ha, -⟩ := old.dirs ht fun h => hold h.symm
            simp [ha]
        have hdir : o.body = .dir := by
          by_cases hs0 : s = []
          · subst hs0
            obtain ⟨o', ho', hb⟩ := hnew
            rw [append_nil, ho'] at ho
            cases ho
            exact hb
          · obtain ⟨a, ha, hd⟩ := old_of_free hΔ (by simp [hs0]) ho fun c hc => hfree c hc s hs0 hs'
            rw [← append_assoc] at hthere
            obtain ⟨a', ha', hb⟩ := old.dirs (by simp) hthere
            rw [ha] at ha'
            cases ha'
            exact (dir_of_not_differs (old.plain ha) (new.plain ho) hd).mp hb
        intro hnone
        rw [← append_assoc] at hnone hthere
        obtain ⟨c, hc, hpos⟩ := hΔ.gone_mem (p ++ s) n o ho hdir hnone hthere
        exact hfree c hc (s ++ [n]) (by simp) hs (by rw [hpos, append_assoc])
    exact hway r (prefix_refl r) hq
  · exact finalMap_of_free hq fun c hc => hfree c hc r hr (prefix_refl r)

/-- With everything pending the tree is the old one. -/
theorem mixed_all {pending : List Change} (h : ∀ c ∈ all, c ∈ pending) : mixed old new all pending = old.map := by
  funext q
  simp only [mixed]
  split
  next => rfl
  next hnone =>
    have hfree : ∀ c ∈ all, ¬ c.pos <+: q := fun c hc hpre => hnone ⟨c, h c hc, hpre⟩
    by_cases hq : q = []
    · subst hq
      refine finalMap_of_free (by simp [new.map_nil]) fun c hc he => ?_
      exact hΔ.ne_nil c hc he
    · have hroot : ∃ o, new.map [] = some o ∧ o.body = .dir := ⟨_, new.map_nil, new.root⟩
      have := finalMap_unchanged hΔ (p := []) hq hroot fun c hc s _ hs he =>
        hfree c hc (by rw [he]; exact hs)
      simpa using this

/-! ### The turn of one change -/

variable {c : Change} {rest : List Change} (hc : c ∈ all) (hrest : ∀ c' ∈ rest, c' ∈ all)
  (hfirst : ∀ c' ∈ rest, ¬ c'.pos <+: c.pos)
  (hlater : ∀ c' ∈ all, c.pos <+: c'.pos → c'.pos ≠ c.pos → c' ∈ rest)

omit hΔ in
theorem mixed_at (h : c.pos <+: q) : mixed old new all (c :: rest) q = old.map q := by
  rw [mixed, if_pos ⟨c, by simp, h⟩]

omit hΔ in
theorem mixed_beside (h : ¬ c.pos <+: q) : mixed old new all (c :: rest) q = mixed old new all rest q := by
  simp [mixed, h]

omit hΔ in
include hfirst in
theorem mixed_above (h : q <+: c.pos) : mixed old new all rest q = finalMap old new all q := by
  rw [mixed, if_neg]
  rintro ⟨c', hc', hpre⟩
  exact hfirst c' hc' (hpre.trans h)

include hc in
/-- A change sits in a directory of the new tree. -/
theorem parent_of_change : ∃ d n o, c.pos = d ++ [n] ∧ new.map d = some o ∧ o.body = .dir := by
  by_cases hk : c.kind = .delete
  · exact (hΔ.gone c hc hk).2.2
  · obtain ⟨d, n, hdn⟩ := (eq_nil_or_concat' c.pos).resolve_left (hΔ.ne_nil c hc)
    obtain ⟨o, ho, hb⟩ := new.dirs (p := d) (r := [n]) (by simp) (hdn ▸ hΔ.put c hc hk)
    exact ⟨d, n, o, hdn, ho, hb⟩

include hc in
theorem names_of_change : ∀ n ∈ c.pos, Proper n ∧ NoWhiteout n := by
  by_cases hk : c.kind = .delete
  · exact old.names (hΔ.gone c hc hk).2.1
  · exact new.names (hΔ.put c hc hk)

include hc hfirst in
/-- The directories above a change are there when its turn comes. -/
theorem mixed_placed : Placed (mixed old new all (c :: rest)) c.pos where
  ne_nil := hΔ.ne_nil c hc
  proper n hn := (names_of_change hΔ hc n hn).1
  dirs r hr hne := by
    obtain ⟨d, n, o, hdn, ho, hb⟩ := parent_of_change hΔ hc
    have hrd : r <+: d := by
      rw [hdn] at hr hne
      exact (prefix_concat_iff.mp hr).resolve_left hne
    have hdir : ∃ o, new.map r = some o ∧ o.body = .dir := by
      obtain ⟨t, rfl⟩ := hrd
      by_cases ht : t = []
      · subst ht
        exact ⟨o, by simpa using ho, hb⟩
      · exact new.dirs ht (by simp [ho])
    obtain ⟨o', ho', hb'⟩ := hdir
    have hnot : ¬ c.pos <+: r := fun h => hne (hr.eq_of_length_le h.length_le)
    rw [mixed_beside hnot, mixed_above hfirst hr]
    exact finalMap_dir hΔ ho' hb'

include hrest hfirst in
/-- Below a path that is no directory of the new tree nothing is left, and nothing pending. -/
theorem mixed_below_leaf (hleaf : ∀ o, new.map c.pos = some o → o.body ≠ .dir)
    (h : c.pos <+: q) (hq : q ≠ c.pos) : mixed old new all rest q = none := by
  have hnone : ∀ {r}, c.pos <+: r → r ≠ c.pos → new.map r = none := by
    intro r hr hne
    obtain ⟨t, rfl⟩ := hr
    by_contra hthere
    obtain ⟨o, ho, hb⟩ := new.dirs (fun ht => hne (by simp [ht])) hthere
    exact hleaf o ho hb
  rw [mixed, if_neg]
  · exact finalMap_of_none (hnone h hq)
  rintro ⟨c', hc', hpre⟩
  have hbelow : c.pos <+: c'.pos := (List.prefix_or_prefix_of_prefix hpre h).resolve_left (hfirst c' hc')
  have hne : c'.pos ≠ c.pos := fun he => hfirst c' hc' (by rw [he])
  -- the parent of the pending change would be a directory at or below the path
  obtain ⟨d, n, o, hdn, ho, hb⟩ := parent_of_change hΔ (hrest c' hc')
  have hd : c.pos <+: d := by
    rw [hdn] at hbelow hne
    exact (prefix_concat_iff.mp hbelow).resolve_left fun he => hne he.symm
  by_cases hcd : d = c.pos
  · exact hleaf o (hcd ▸ ho) hb
  · rw [hnone hd hcd] at ho
    cases ho

include hc hrest hfirst in
/-- The turn of a deletion. -/
theorem mixed_delete (hk : c.kind = .delete) :
    (mixed old new all (c :: rest)).cut c.pos = mixed old new all rest := by
  have hnone := (hΔ.gone c hc hk).1
  funext q
  rw [FileMap.cut]
  split
  next h =>
    by_cases hq : q = c.pos
    · rw [hq, mixed_above hfirst (prefix_refl _), finalMap_of_none hnone]
    · exact (mixed_below_leaf hΔ hrest hfirst (by simp [hnone]) h hq).symm
  next h => exact mixed_beside h

include hc hrest hfirst hlater in
/-- The turn of an addition or a modification. -/
theorem mixed_put (ho : new.map c.pos = some o) :
    (clearFor (mixed old new all (c :: rest)) c.pos o).set c.pos (tarred o) = mixed old new all rest := by
  have hat : mixed old new all (c :: rest) c.pos = old.map c.pos := mixed_at (prefix_refl _)
  funext q
  by_cases hq : q = c.pos
  · rw [hq, FileMap.set_self, mixed_above hfirst (prefix_refl _), finalMap_of_mem hc ho]
  rw [FileMap.set, if_neg hq]
  by_cases hpq : c.pos <+: q
  · obtain ⟨t, rfl⟩ := hpq
    have ht : t ≠ [] := fun h => hq (by simp [h])
    by_cases hdirs : ∃ a, old.map c.pos = some a ∧ a.body = .dir ∧ o.body = .dir
    · -- a directory meets a directory: what is below stays
      obtain ⟨a, ha, hb⟩ := hdirs
      rw [clearFor, hat]
      simp only [ha, if_pos hb]
      rw [mixed_at (prefix_append ..), mixed]
      split
      next => rfl
      next hnone =>
        refine (finalMap_unchanged hΔ ht ⟨o, ho, hb.2⟩ fun c' hc' s hs hst he => hnone ?_).symm
        refine ⟨c', hlater c' hc' (by rw [he]; simp) (by rw [he]; simpa using hs), ?_⟩
        rw [he]
        exact (prefix_append_right_inj _).mpr hst
    · -- otherwise nothing old is left below
      have hcleared : clearFor (mixed old new all (c :: rest)) c.pos o (c.pos ++ t) = none := by
        rw [clearFor, hat]
        cases ha : old.map c.pos with
        | none =>
          simp only
          rw [mixed_at (prefix_append ..)]
          by_contra hthere
          obtain ⟨a, ha', -⟩ := old.dirs ht hthere
          rw [ha] at ha'
          cases ha'
        | some a =>
          simp only
          rw [if_neg fun h => hdirs ⟨a, ha, h⟩, FileMap.cut, if_pos (prefix_append ..)]
      rw [hcleared]
      by_cases hb : o.body = .dir
      · have hold : old.map (c.pos ++ t) = none := by
          by_contra hthere
          obtain ⟨a, ha, hab⟩ := old.dirs ht hthere
          exact hdirs ⟨a, ha, hab, hb⟩
        rw [mixed]
        split
        next => exact hold.symm
        next hnone =>
          refine (finalMap_of_none ?_).symm
          by_contra hthere
          obtain ⟨c', hc', hpos⟩ := hΔ.put_mem _ hthere hold
          refine hnone ⟨c', hlater c' hc' (by rw [hpos]; simp) (by rw [hpos]; exact hq), by rw [hpos]⟩
      · refine (mixed_below_leaf hΔ hrest hfirst (fun o' ho' => ?_) (prefix_append ..) hq).symm
        rw [ho] at ho'
        cases ho'
        exact hb
  · rw [clearFor_beside hpq]
    exact mixed_beside hpq

/-! ### The whole sequence -/

omit hΔ in
/-- The place of a change in the sorted list: what follows is not above it, and all below follows. -/
theorem sorted_turn {done : List Change} (hnd : (all.map Change.pos).Nodup)
    (hproper : ∀ c ∈ all, ∀ n ∈ c.pos, Proper n) (h : sortByPath all = done ++ c :: rest) :
    c ∈ all ∧ (∀ c' ∈ rest, c' ∈ all) ∧ (∀ c' ∈ rest, ¬ c'.pos <+: c.pos) ∧
      ∀ c' ∈ all, c.pos <+: c'.pos → c'.pos ≠ c.pos → c' ∈ rest := by
  have hmem : ∀ {c'}, c' ∈ all ↔ c' ∈ done ++ c :: rest := by
    intro c'
    rw [← h, mem_sortByPath]
  have hnd' : ((done ++ c :: rest).map Change.pos).Nodup :=
    h ▸ ((perm_insertionSort _ all).map Change.pos).nodup_iff.mpr hnd
  rw [map_append, map_cons, nodup_append, nodup_cons] at hnd'
  have hsorted := sortByPath_pairwise all
  rw [h, pairwise_append, pairwise_cons] at hsorted
  have hc : c ∈ all := hmem.mpr (by simp)
  refine ⟨hc, fun c' hc' => hmem.mpr (by simp [hc']), fun c' hc' => ?_, fun c' hc' hpre hne => ?_⟩
  · refine not_prefix_of_path_le (hsorted.2.1.1 c' hc') (hproper c hc) fun he => ?_
    exact hnd'.2.1.1 (he ▸ mem_map_of_mem hc')
  rcases mem_append.mp (hmem.mp hc') with hd | hd
  · exact absurd hpre (not_prefix_of_path_le (hsorted.2.2 c' hd c (by simp)) (hproper c' hc')
      (Ne.symm hne))
  · rcases mem_cons.mp hd with rfl | hd
    · exact absurd rfl hne
    · exact hd

/-- The directories remembered for the end are directories of the new tree that were put. -/
def DirsPut (new : DirTree) (all : List Change) (st : LayerState) : Prop :=
  ∀ hdr ∈ st.dirs, ∃ p o, hdr = fileHeader (joinSlash p) o ∧ new.map p = some o ∧ o.body = .dir ∧
    ∃ c ∈ all, c.pos = p

/-- The loop at the end sets times that are set already. -/
theorem setTimes_final {st : LayerState} (hst : DirsPut new all st) :
    Proc.Triple (Shows · (finalMap old new all)) (setTimes calls (absPath []) st.dirs)
      (fun _ fs => Shows fs (finalMap old new all)) NoFail := by
  refine Proc.Triple.forM st.dirs fun hdr hmem => ?_
  obtain ⟨p, o, rfl, ho, hb, c, hc, rfl⟩ := hst hdr hmem
  have hproper : ∀ n ∈ c.pos, Proper n := fun n hn => (names_of_change hΔ hc n hn).1
  have hplaced : Placed (finalMap old new all) c.pos := by
    refine ⟨hΔ.ne_nil c hc, hproper, fun r hr hne => ?_⟩
    obtain ⟨t, ht⟩ := hr
    obtain ⟨o', ho', hb'⟩ := new.dirs (p := r) (r := t) (fun h => hne (by rw [← ht, h]; simp))
      (by rw [ht, ho]; simp)
    exact finalMap_dir hΔ ho' hb'
  have hfinal : finalMap old new all c.pos = some (tarred o) := finalMap_of_mem hc ho
  have hset := setAttr_spec (m := .stat) hplaced hfinal
    (fun _ t => by rw [show (tarred o).body = o.body from rfl, hb]; simp)
    (withMtime (fileHeader (joinSlash c.pos) o).modTime)
  have hsame : withMtime (fileHeader (joinSlash c.pos) o).modTime (tarred o) = tarred o := rfl
  rw [hsame, FileMap.set_eq_self hfinal] at hset
  have hpath : join [absPath [], (fileHeader (joinSlash c.pos) o).name] = absPath c.pos := by
    show join [absPath [], joinSlash c.pos] = _
    rw [join_absPath (by simp), comps_joinSlash fun n hn => (hproper n hn).elem,
      walk_proper [] hproper, nil_append]
  rw [hpath]
  exact hset.mapError

omit hΔ in
theorem DirsPut.withDir {st : LayerState} (hst : DirsPut new all st) (hc : c ∈ all)
    (ho : new.map c.pos = some o) : DirsPut new all (st.withDir (fileHeader (joinSlash c.pos) o)) := by
  unfold LayerState.withDir
  split
  next hdir =>
    exact forall_mem_append.mpr ⟨hst, forall_mem_singleton.mpr ⟨c.pos, o, rfl, ho, headerType_eq_dir.mp hdir, c, hc, rfl⟩⟩
  next => exact hst

/-- **The loop of `UnpackLayer` over the sorted changes**: from the tree in which they are pending it
reaches the final tree, without failing. -/
theorem unpackLayerLoop_changes (now : Time) (pending : List Change) :
    ∀ (done : List Change) (st : LayerState), sortByPath all = done ++ pending →
      DirsPut new all st →
      Proc.Triple (Shows · (mixed old new all pending))
        (unpackLayerLoop calls (absPath []) (pending.filterMap (exportChange new.map now)) st)
        (fun _ fs => Shows fs (finalMap old new all)) NoFail := by
  induction pending with
  | nil =>
    intro done st _ hst
    rw [mixed_nil]
    exact (setTimes_final hΔ hst).bind fun _ => Proc.Triple.pure _ fun _ h => h
  | cons c rest ih =>
    intro done st hsplit hst
    have hnames : ∀ c ∈ all, ∀ n ∈ c.pos, Proper n ∧ NoWhiteout n := fun c hc => names_of_change hΔ hc
    obtain ⟨hc, hrest, hfirst, hlater⟩ := sorted_turn hΔ.nodup (fun c hc n hn => (hnames c hc n hn).1) hsplit
    have hplaced : Placed (mixed old new all (c :: rest)) c.pos := mixed_placed hΔ hc hfirst
    have hnext := fun st' hst' => ih (done ++ [c]) st' (by rw [hsplit]; simp) hst'
    by_cases hk : c.kind = .delete
    · have hexport : exportChange new.map now c = some (whiteout now c) := if_pos hk
      rw [filterMap_cons_some hexport]
      obtain ⟨d, n, -, hdn, -, -⟩ := parent_of_change hΔ hc
      obtain ⟨pos, kind⟩ := c
      simp only at hdn hk
      subst hdn hk
      have hds : ∀ m ∈ d, Proper m ∧ NoWhiteout m := fun m hm => hnames _ hc m (by simp [hm])
      have hn : Proper n ∧ NoWhiteout n := hnames _ hc n (by simp)
      obtain ⟨hname, hwn⟩ := whiteout_name (fun m hm => (hds m hm).1) hn.1 now
      refine unpackLayerLoop_cons (I := DirsPut new all) hname (hplaced.sibling hwn)
        (whiteout_not_metadata (fun m hm => (hds m hm).2) hn.2) ?_ hnext
      have hentry := layerEntry_whiteout hplaced now
        { st with size := st.size + (whiteout now ⟨d ++ [n], .delete⟩).hdr.cleaned.size }
      rw [mixed_delete hΔ hc hrest hfirst rfl] at hentry
      exact hentry.post fun st' fs h => ⟨h.1 ▸ hst, h.2⟩
    · obtain ⟨o, ho⟩ := ne_none_iff_exists'.mp (hΔ.put c hc hk)
      have hexport : exportChange new.map now c = some (tarEntry (joinSlash c.pos) o) := by
        rw [exportChange, if_neg hk, addTarFile, ho]; rfl
      rw [filterMap_cons_some hexport]
      have hclean := tarEntry_cleaned hplaced.proper hplaced.ne_nil o
      have hwh : ∀ n ∈ c.pos, NoWhiteout n := fun n hn => (hnames c hc n hn).2
      refine unpackLayerLoop_cons (I := DirsPut new all) (congrArg Header.name hclean) hplaced
        (file_not_metadata hwh hplaced.ne_nil) ?_ hnext
      have hentry := layerEntry_file { st with size := st.size + (fileHeader (joinSlash c.pos) o).size }
        (new.plain ho) hplaced hwh ?_
      · rw [mixed_put hΔ hc hrest hfirst hlater ho] at hentry
        rw [hclean]
        have hst' : DirsPut new all
            { st with size := st.size + (fileHeader (joinSlash c.pos) o).size } := hst
        exact hentry.post fun st' fs h => ⟨h.1 ▸ hst'.withDir hc ho, h.2⟩
      · intro a ha hb
        rw [mixed_at (prefix_refl _)] at ha
        have := old.plain ha
        simpa only [Plain, hb] using this

/-! ### The final tree is the new one -/

/-- Two files of one path that the comparison calls equal have the same content or target. -/
def SameContent (old new : FileMap) : Prop :=
  ∀ p a b, old p = some a → new p = some b → a.body ≠ .dir → b.body ≠ .dir →
    (infoOf a).differs (infoOf b) = false → a.body = b.body

/-- The map has the paths of the tree, and at each of them its object but for the time, which the
comparison does not tell from the tree's. -/
def Restores (T : FileMap) (new : DirTree) : Prop :=
  ∀ q, q ≠ [] → (new.map q = none → T q = none) ∧ ∀ b, new.map q = some b →
    ∃ a, T q = some a ∧ untimed a = untimed b ∧
      (b.body ≠ .dir → sameFsTimeSpec b.mtime a.mtime = true)

theorem finalMap_restores (hcontent : SameContent old.map new.map) : Restores (finalMap old new all) new := by
  refine fun q hq => ⟨finalMap_of_none, fun b hb => ?_⟩
  by_cases hmem : ∃ c ∈ all, c.pos = q
  · obtain ⟨c, hc, rfl⟩ := hmem
    exact ⟨tarred b, finalMap_of_mem hc hb, rfl, fun _ => by simp [sameFsTimeSpec, tarred, tarTime]⟩
  have hfree : ∀ c ∈ all, c.pos ≠ q := fun c hc he => hmem ⟨c, hc, he⟩
  obtain ⟨a, ha, hd⟩ := old_of_free hΔ hq hb hfree
  refine ⟨a, by rw [finalMap_of_free (by simp [hb]) hfree, ha],
    untimed_of_not_differs (old.plain ha) (new.plain hb) hd fun h₁ h₂ => hcontent q a b ha hb h₁ h₂ hd,
    fun hdir => ?_⟩
  obtain ⟨-, -, -, -, htime⟩ := statDifferent_eq_false.mp (Bool.or_eq_false_iff.mp hd).1
  rw [sameFsTimeSpec_comm]
  refine (htime fun hmode => hdir ?_).1
  refine (dir_of_not_differs (old.plain ha) (new.plain hb) hd).mp ((old.plain ha).isDir.mp ?_)
  rw [Info.isDir, bne_iff_ne, hmode]
  decide

end Sequence

namespace Restores

variable {T : FileMap} {new : DirTree} {newInfo : FileInfo} (h : Restores T new)

include h

theorem map_untimed {p : List Str} (hp : p ≠ []) : (T p).map untimed = (new.map p).map untimed := by
  cases hb : new.map p with
  | none => rw [(h p hp).1 hb]
  | some b =>
    obtain ⟨a, ha, hab, -⟩ := (h p hp).2 b hb
    rw [ha, map_some, map_some, hab]

theorem differs {q : List Str} (hq : q ≠ []) {a b : Obj} (ha : T q = some a) (hb : new.map q = some b) :
    (infoOf b).differs (infoOf a) = false := by
  obtain ⟨a', ha', hab, ht⟩ := (h q hq).2 b hb
  rw [ha] at ha'
  cases ha'
  exact not_differs_of_untimed (new.plain hb) hab.symm ht

/-- The restored tree can be collected. -/
theorem collected (hnew : Collected new.map newInfo) : ∃ resInfo, Collected T resInfo := by
  let f : List Str → Info → Info := fun q i => if q = [] then i else ((T q).map infoOf).getD i
  refine ⟨newInfo.relabel f [], ?_, ?_, fun n r => ?_⟩
  · refine FileInfo.wf_relabel newInfo hnew.wf [] fun q i hi hd => ?_
    rw [nil_append]
    by_cases hq : q = []
    · simpa only [f, if_pos hq] using hd
    obtain ⟨b, hb, hbd⟩ := hnew.isDir_iff.mp ⟨i, hi, hd⟩
    obtain ⟨a, ha, -, -⟩ := (h q hq).2 b hb
    have hmode := (statDifferent_eq_false.mp (Bool.or_eq_false_iff.mp (h.differs hq ha hb)).1).1
    simp only [f, if_neg hq, ha, map_some, getD_some]
    rw [Info.isDir, ← hmode]
    exact (new.plain hb).isDir.mpr hbd
  · have hval : (newInfo.relabel f []).look [] = some newInfo.val := by
      rw [look_relabel, look_nil]; rfl
    rw [look_nil] at hval
    rw [some.inj hval]
    exact hnew.root
  · rw [look_relabel, hnew.look, nil_append]
    cases hb : new.map (n :: r) with
    | none => rw [(h _ (by simp)).1 hb]; rfl
    | some b =>
      obtain ⟨a, ha, -, -⟩ := (h _ (by simp)).2 b hb
      rw [ha]
      simp only [map_some, f, reduceCtorEq, if_false, ha, getD_some]

/-- Comparing it with the tree finds no change. -/
theorem changes_eq_nil {resInfo : FileInfo} (hres : Collected T resInfo)
    (hnew : Collected new.map newInfo) : changes resInfo newInfo = [] := by
  refine changes_nil hres.wf (fun r => ?_) fun n r i j hi hj => ?_
  · by_cases hr : r = []
    · subst hr
      rw [look_nil, look_nil]
      simp
    · rw [hres.look_of_ne hr, hnew.look_of_ne hr, map_eq_none_iff, map_eq_none_iff]
      refine ⟨fun hT => ?_, (h r hr).1⟩
      by_contra hne
      obtain ⟨b, hb⟩ := ne_none_iff_exists'.mp hne
      obtain ⟨a, ha, -⟩ := (h r hr).2 b hb
      rw [hT] at ha
      cases ha
  · rw [hres.look] at hi
    rw [hnew.look] at hj
    obtain ⟨a, ha, rfl⟩ := map_eq_some_iff.mp hi
    obtain ⟨b, hb, rfl⟩ := map_eq_some_iff.mp hj
    exact h.differs (by simp) ha hb

end Restores

/-- **Layer diff and layer apply are inverse.** For every two directory trees and every order in
which their file infos are ranged over, the exported changes unpack onto a file system that holds
`old` at its root without an error. Afterwards it holds the paths of `new` and at each of them the
type, content or target, mode, owner and capability of `new`, and comparing it with `new` finds no
change. -/
theorem unpackLayer_exportChanges {old new : DirTree} {oldInfo newInfo : FileInfo}
    (hold : Collected old.map oldInfo) (hnew : Collected new.map newInfo)
    (hcontent : SameContent old.map new.map) (now : Time) {fs : Fs} (hfs : Shows fs old.map) :
    ∃ size fs', unpackLayer calls "/".toList
        (exportChanges new.map now (changes newInfo oldInfo)) fs = (.ok size, fs') ∧
      (∀ p, p ≠ [] → (fs'.obj p).map untimed = (new.map p).map untimed) ∧
      (∃ resInfo, Collected fs'.obj resInfo) ∧
      ∀ resInfo, Collected fs'.obj resInfo → changes resInfo newInfo = [] := by
  have hΔ := delta_changes hold hnew
  have hrun := unpackLayerLoop_changes hΔ now (sortByPath (changes newInfo oldInfo)) []
    ⟨0, [], [], []⟩ rfl (fun _ h => by cases h)
  rw [mixed_all hΔ fun c => mem_sortByPath.mpr] at hrun
  obtain ⟨size, fs', hout, hshow⟩ := hrun.run hfs
  have hobj : fs'.obj = finalMap old new (changes newInfo oldInfo) := funext hshow.obj
  have hback := finalMap_restores hΔ hcontent
  rw [← hobj] at hback
  exact ⟨size, fs', hout, fun p => hback.map_untimed, hback.collected hnew,
    fun resInfo hres => hback.changes_eq_nil hres hnew⟩

/-! ### An example -/

/-- The tree of one file in the root directory. -/
def oneFile : DirTree where
  tree := .node (newObj .dir 0o755) [("a".toList, .node (newObj (.file [1, 2]) 0o644) [])]
  root := rfl
  wf := by
    refine .node ⟨by simp, fun k hk => ?_, fun _ => rfl, rfl⟩ fun k hk => ?_
    · rw [mem_singleton.mp hk]; decide
    · rw [mem_singleton.mp hk]
      exact .node ⟨by simp, by simp, by simp, .inl rfl⟩ (by simp)

/-- The tree of one directory with a link in it. -/
def oneDir : DirTree where
  tree := .node (newObj .dir 0o755) [("d".toList, .node (newObj .dir 0o700)
    [("l".toList, .node (newObj (.symlink "a".toList) 0o777) [])])]
  root := rfl
  wf := by
    refine .node ⟨by simp, fun k hk => ?_, fun _ => rfl, rfl⟩ fun k hk => ?_
    · rw [mem_singleton.mp hk]; decide
    rw [mem_singleton.mp hk]
    refine .node ⟨by simp, fun k hk => ?_, fun _ => rfl, rfl⟩ fun k hk => ?_
    · rw [mem_singleton.mp hk]; decide
    · rw [mem_singleton.mp hk]
      exact .node ⟨by simp, by simp, by simp, by simp, rfl, rfl⟩ (by simp)

/-- A file system that holds `oneFile`. -/
def oneFileFs : Fs where
  names p := if p = [] then some 0 else if p = ["a".toList] then some 1 else none
  inodes i := if i = 0 then newObj .dir 0o755 else newObj (.file [1, 2]) 0o644
  next := 2
  cwd := []
  fresh := by
    intro p i h
    split at h
    · cases h; omega
    · split at h
      · cases h; omega
      · cases h

theorem oneFile_map_of_ne {n : Str} (hn : n ≠ "a".toList) (r : List Str) : oneFile.map (n :: r) = none := by
  have hl : lookup n oneFile.tree.kids = none := by
    rw [lookup_eq_none_iff]
    intro k hk
    rw [mem_singleton.mp hk]
    exact bne_iff_ne.mpr hn
  rw [DirTree.map, look_cons, child, hl]; rfl

theorem shows_oneFileFs : Shows oneFileFs oneFile.map where
  obj q := by
    rcases q with - | ⟨n, r⟩
    · rfl
    by_cases hn : n = "a".toList
    · subst hn
      cases r <;> rfl
    have hname : oneFileFs.names (n :: r) = none := by
      simp only [oneFileFs, reduceCtorEq, if_false]
      exact if_neg fun h => hn (cons.inj h).1
    rw [oneFile_map_of_ne hn, obj, hname]; rfl
  sole {p q i} hp hq := by
    simp only [oneFileFs] at hp hq
    grind

/-- The layer of a directory that replaces a file, unpacked onto the file. -/
theorem unpackLayer_oneDir :
    ∃ size fs', unpackLayer calls "/".toList
        (exportChanges oneDir.map ⟨0, 0⟩ (changes
          (oneDir.tree.relabel (fun _ o => infoOf o) []) (oneFile.tree.relabel (fun _ o => infoOf o) [])))
        oneFileFs = (.ok size, fs') ∧
      (fs'.obj ["a".toList]).map untimed = none ∧
      (fs'.obj ["d".toList, "l".toList]).map untimed = some (untimed (newObj (.symlink "a".toList) 0o777)) := by
  have hsame : SameContent oneFile.map oneDir.map := by
    rintro (- | ⟨n, r⟩) a b ha hb hna hnb -
    · cases ha; exact absurd rfl hna
    · by_cases hn : n = "a".toList
      · subst hn; cases hb
      · rw [oneFile_map_of_ne hn] at ha; cases ha
  obtain ⟨size, fs', hrun, hobj, -⟩ := unpackLayer_exportChanges oneFile.collected oneDir.collected
    hsame ⟨0, 0⟩ shows_oneFileFs
  exact ⟨size, fs', hrun, hobj _ (by simp), hobj _ (by simp)⟩

end DockerEngine.Archive
