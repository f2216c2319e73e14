import DockerEngine.Lib.NameTree
import DockerEngine.Lib.UnixFs

/-!
# The difference of two directory trees

`ChangesDirs` of `pkg/archive/changes.go`: the list of paths added, modified and deleted between two
directories, computed by `addChanges` over the trees of file infos that were collected from them.
The children of a file info are a Go map; here they are a list, whose order is the order in which
the map is ranged over. Every order is the order of some tree, so a statement about every tree is a
statement about every order.

A change is kept with the names on its path; `Change.path` spells the path the source stores, which
is what `info.path()` returns (`path_child`).

The main result is `mem_inside_iff_reported`: for every pair of trees, what a call reports below a node
depends only on what the two trees show at each path (`Reported`); the old tree counts as far as the new
one has directories. `mem_changes` reads it for trees in which only directories have children. The order
of the list is in `Archive.ChangeList`. How the trees are collected, and what the Linux walker leaves out of
them, is not a matter of this module.
-/

namespace DockerEngine.Archive

open Filepath UnixFs List NameTree

/-! ## File infos -/

/-- `system.Stat_t`. -/
structure Stat where
  mode : Nat
  uid : Nat
  gid : Nat
  rdev : Nat
  size : Nat
  mtim : Time
  deriving DecidableEq, Repr

/-- The data of a `FileInfo`. No capability is the empty one: `bytes.Compare` does not tell them
apart. -/
structure Info where
  stat : Stat
  capability : Bytes
  deriving DecidableEq, Repr

/-- A `FileInfo` with its children. -/
abbrev FileInfo := NameTree Str Info

/-- `syscall.S_IFDIR`. -/
def sIFDIR : Nat := 0o040000

/-- `sameFsTimeSpec`: equal, or equal seconds where one of the two has no nanoseconds. -/
def sameFsTimeSpec (a b : Time) : Bool := a.sec == b.sec && (a.nsec == b.nsec || a.nsec == 0 || b.nsec == 0)

theorem sameFsTimeSpec_comm (a b : Time) : sameFsTimeSpec a b = sameFsTimeSpec b a := by
  rw [Bool.eq_iff_iff]
  simp only [sameFsTimeSpec, Bool.and_eq_true, Bool.or_eq_true, beq_iff_eq]
  omega

/-- `statDifferent`. -/
def statDifferent (oldStat newStat : Stat) : Bool :=
  oldStat.mode != newStat.mode || oldStat.uid != newStat.uid || oldStat.gid != newStat.gid ||
    oldStat.rdev != newStat.rdev ||
    ((oldStat.mode &&& sIFDIR) != sIFDIR &&
      (!sameFsTimeSpec oldStat.mtim newStat.mtim || oldStat.size != newStat.size))

/-- The comparison of two children of one name: `statDifferent` or another capability. -/
def Info.differs (old new : Info) : Bool := statDifferent old.stat new.stat || old.capability != new.capability

/-- `isDir` of a file info that has a parent. The root, which has none, is given a mode with this
bit. -/
def Info.isDir (i : Info) : Bool := (i.stat.mode &&& sIFDIR) != 0

/-! ## Changes -/

/-- `ChangeType`. -/
inductive ChangeType where
  | modify | add | delete
  deriving DecidableEq, Repr

/-- A change, with the names on its path. -/
structure Change where
  pos : List Str
  kind : ChangeType
  deriving DecidableEq, Repr

/-- `Change.Path`. -/
def Change.path (c : Change) : Str := absPath c.pos

variable {n : Str}

/-- `info.path()`: the path of a child is its parent's path joined with its name. -/
theorem path_child {ds : List Str} (hd : AllProper ds) (hn : Proper n) :
    join [absPath ds, n] = absPath (ds ++ [n]) := by
  have hcomps : comps n = [n] := by
    rw [← joinSlash_singleton n, comps_joinSlash (by simpa using hn.elem), joinSlash_singleton]
  rw [join_absPath hd, hcomps, walk_proper ds (by simpa using hn)]

/-- The old children a call compares with: only a directory is compared child by child, anything else
is considered to replace the old one as a whole. -/
def oldChildrenOf (i : Info) (oldInfo : Option FileInfo) : List (Str × FileInfo) :=
  if i.isDir then (oldInfo.map kids).getD [] else []

mutual
/-- `addChanges`: the changes one call appends for the file info at `pos`. `added` is the flag that
the caller may have set. -/
def addChanges (pos : List Str) (added : Bool) (oldInfo : Option FileInfo) : FileInfo → List Change
  | .node i children =>
    let (inner, gone) := addChildren pos children (oldChildrenOf i oldInfo)
    let changes := (if oldInfo.isNone then [⟨pos, .add⟩] else []) ++ inner ++
      gone.map fun k => ⟨pos ++ [k.1], .delete⟩
    -- a directory with changes inside goes in front of them
    if changes ≠ [] ∧ i.isDir ∧ !(added || oldInfo.isNone) ∧ pos ≠ [] then ⟨pos, .modify⟩ :: changes
    else changes

/-- The loop of `addChanges` over the children: their changes, and the old children that no new
child has the name of. -/
def addChildren (pos : List Str) : List (Str × FileInfo) → List (Str × FileInfo) → List Change × List (Str × FileInfo)
  | [], oldChildren => ([], oldChildren)
  | (name, newChild) :: rest, oldChildren =>
    match oldChildren.lookup name with
    | some oldChild =>
      let differs := oldChild.val.differs newChild.val
      let here := (if differs then [⟨pos ++ [name], .modify⟩] else []) ++
        addChanges (pos ++ [name]) differs (some oldChild) newChild
      let (inner, gone) := addChildren pos rest (oldChildren.filter fun k => k.1 != name)
      (here ++ inner, gone)
    | none =>
      let here := addChanges (pos ++ [name]) false none newChild
      let (inner, gone) := addChildren pos rest oldChildren
      (here ++ inner, gone)
end

/-- `info.Changes(oldInfo)`, which `ChangesDirs` returns for the roots of the two trees. -/
def changes (info oldInfo : FileInfo) : List Change := addChanges [] false (some oldInfo) info

/-- A file info as it is collected: children have names of their own, fit for a directory, and only
directories have children. -/
def FileInfo.Wf (t : FileInfo) : Prop :=
  t.All fun i ks => (ks.map Prod.fst).Nodup ∧ (∀ k ∈ ks, Proper k.1) ∧ (ks ≠ [] → i.isDir = true)

/-- File infos made from the data of a tree with fit names, where directories become directories. -/
theorem FileInfo.wf_relabel {A : Type} {D : A → Prop} {f : List Str → A → Info}
    (t : NameTree Str A) : t.All (fun a ks => (ks.map Prod.fst).Nodup ∧ (∀ k ∈ ks, Proper k.1) ∧
      (ks ≠ [] → D a)) → ∀ p : List Str,
      (∀ q a, t.look q = some a → D a → (f (p ++ q) a).isDir) →
      FileInfo.Wf (t.relabel f p) := by
  induction t using induct with
  | node a ks ih =>
  intro h p hf
  obtain ⟨hnd, hproper, hdir⟩ := h.here
  rw [relabel]
  refine .node ⟨?_, fun k hk => ?_, fun hne => ?_⟩ fun k hk => ?_
  · rw [relabelKids_names]; exact hnd
  · have hmem := mem_map_of_mem (f := Prod.fst) hk
    rw [relabelKids_names] at hmem
    obtain ⟨k', hk', he⟩ := mem_map.mp hmem
    exact he ▸ hproper k' hk'
  · have hks : ks ≠ [] := by
      rintro rfl
      exact hne (by rw [relabelKids])
    have := hf [] a (look_nil _) (hdir hks)
    rwa [append_nil] at this
  · have hl := lookup_of_mem (by rw [relabelKids_names]; exact hnd) hk
    rw [lookup_relabelKids] at hl
    obtain ⟨t, ht, hk2⟩ := Option.map_eq_some_iff.mp hl
    have hmem := mem_of_lookup ht
    rw [← hk2]
    refine ih (k.1, t) hmem (h.kids _ hmem) (p ++ [k.1]) fun q b hq hb => ?_
    rw [append_assoc]
    refine hf (k.1 :: q) b ?_ hb
    rw [look_cons, child, kids, ht]
    exact hq

/-! ## The loop over the children -/

/-- The changes the loop appends for one child. -/
def childChanges (pos : List Str) (oldChildren : List (Str × FileInfo)) (k : Str × FileInfo) : List Change :=
  match oldChildren.lookup k.1 with
  | some oldChild =>
    (if oldChild.val.differs k.2.val then [⟨pos ++ [k.1], .modify⟩] else []) ++
      addChanges (pos ++ [k.1]) (oldChild.val.differs k.2.val) (some oldChild) k.2
  | none => addChanges (pos ++ [k.1]) false none k.2

variable {children : List (Str × FileInfo)}

/-- Children are handled each by itself: taking the old child of one name from the map does not
touch another name. -/
theorem addChildren_eq (pos : List Str) (hnd : (children.map Prod.fst).Nodup) (oldChildren : List (Str × FileInfo)) :
    addChildren pos children oldChildren = (children.flatMap (childChanges pos oldChildren),
      oldChildren.filter fun k => k.1 ∉ children.map Prod.fst) := by
  induction children generalizing oldChildren with
  | nil => simp [addChildren]
  | cons k rest ih =>
    obtain ⟨name, child⟩ := k
    rw [map_cons, nodup_cons] at hnd
    have hother : ∀ k ∈ rest, childChanges pos (oldChildren.filter fun k => k.1 != name) k =
        childChanges pos oldChildren k := by
      intro k hk
      have hne : k.1 ≠ name := fun h => hnd.1 (mem_map.mpr ⟨k, hk, h⟩)
      simp only [childChanges, lookup_filter_ne hne]
    rw [addChildren, flatMap_cons]
    cases hl : oldChildren.lookup name with
    | none =>
      have habsent : ∀ k ∈ oldChildren, k.1 ≠ name := by
        rintro k hk rfl
        have := lookup_eq_none_iff.mp hl k hk
        simp at this
      simp only [ih hnd.2, childChanges, hl]
      refine Prod.ext rfl (filter_congr fun k hk => ?_)
      simp [habsent k hk]
    | some oldChild =>
      simp only [ih hnd.2, filter_filter]
      refine Prod.ext ?_ ?_
      · simp only [childChanges, hl]
        rw [flatMap_congr hother]
      · refine filter_congr fun k _ => ?_
        rw [Bool.eq_iff_iff]
        simp [and_comm]

/-- The changes inside a directory: those of its children and the deletions. -/
def innerChanges (pos : List Str) (children oldChildren : List (Str × FileInfo)) : List Change :=
  children.flatMap (childChanges pos oldChildren) ++
    (oldChildren.filter fun k => k.1 ∉ children.map Prod.fst).map fun k => ⟨pos ++ [k.1], .delete⟩

variable {i : Info} {k : ChangeType} {p : List Str}

/-- One call of `addChanges`: the changes inside, and the path itself in front of them when it is new
or a directory that was not reported yet. -/
theorem addChanges_node (pos : List Str) (added : Bool) (oldInfo : Option FileInfo)
    (hnd : (children.map Prod.fst).Nodup) :
    addChanges pos added oldInfo (.node i children) =
      let inner := innerChanges pos children (oldChildrenOf i oldInfo)
      if oldInfo = none then ⟨pos, .add⟩ :: inner
      else if inner ≠ [] ∧ i.isDir ∧ !added ∧ pos ≠ [] then ⟨pos, .modify⟩ :: inner
      else inner := by
  rw [addChanges]
  simp only [addChildren_eq pos hnd]
  cases oldInfo with
  | none => simp [innerChanges]
  | some t =>
    simp only [innerChanges, Option.isNone_some, Bool.or_false, Bool.false_eq_true, if_false,
      nil_append, reduceCtorEq]
    exact if_congr Iff.rfl rfl rfl

/-! ## One path at a time -/

/-- The children of a node have names of their own: they are the keys of a map. -/
def FileInfo.Keyed (t : FileInfo) : Prop := t.All fun _ ks => (ks.map Prod.fst).Nodup

/-- The old tree, where there is one. -/
def oldLook (o : Option FileInfo) (r : List Str) : Option Info := o.bind fun t => t.look r

section OldChildren

variable {i : Info} {o : Option FileInfo}

theorem isDir_of_mem_oldChildren {k : Str × FileInfo} (hk : k ∈ oldChildrenOf i o) : i.isDir := by
  by_contra hd
  rw [oldChildrenOf, if_neg hd] at hk
  cases hk

/-- What holds at every node of the old tree holds at those of its children. -/
theorem oldChildren_all {P : Info → List (Str × FileInfo) → Prop} (hP : ∀ a ks, P a ks → (ks.map Prod.fst).Nodup)
    (ho : ∀ t, o = some t → t.All P) :
    ((oldChildrenOf i o).map Prod.fst).Nodup ∧ ∀ k ∈ oldChildrenOf i o, k.2.All P := by
  unfold oldChildrenOf
  split
  · cases o with
    | none => simp
    | some t => exact ⟨hP _ _ (ho t rfl).here, (ho t rfl).kids⟩
  · simp

end OldChildren

/-- The changes inside a directory have no path twice. -/
theorem inner_nodup {pos : List Str} {oldChildren : List (Str × FileInfo)}
    (hnd : (children.map Prod.fst).Nodup) (hnd' : (oldChildren.map Prod.fst).Nodup)
    (hf : ∀ k ∈ children, ((childChanges pos oldChildren k).map Change.pos).Nodup ∧
      ∀ c ∈ childChanges pos oldChildren k, ∃ r, c.pos = pos ++ [k.1] ++ r) :
    ((innerChanges pos children oldChildren).map Change.pos).Nodup := by
  rw [innerChanges, map_append, map_map, map_flatMap, nodup_append]
  refine ⟨?_, ?_, ?_⟩
  · rw [nodup_flatMap]
    refine ⟨fun k hk => (hf k hk).1, ?_⟩
    refine (pairwise_map.mp hnd).imp_of_mem fun {k k'} hk hk' hne q hq hq' => ?_
    obtain ⟨c, hc, rfl⟩ := mem_map.mp hq
    obtain ⟨c', hc', hpos⟩ := mem_map.mp hq'
    obtain ⟨r, hr⟩ := (hf k hk).2 c hc
    obtain ⟨r', hr'⟩ := (hf k' hk').2 c' hc'
    rw [hr, hr', append_assoc, append_assoc] at hpos
    exact hne (cons.inj (append_cancel_left hpos)).1.symm
  · have hinj : Function.Injective fun n : Str => pos ++ [n] := fun n n' h => by simpa using h
    have hnames := ((filter_sublist (p := fun k => k.1 ∉ children.map Prod.fst)).map Prod.fst).nodup hnd'
    have hmap := hnames.map hinj
    rw [map_map] at hmap
    exact hmap
  · intro q hq q' hq' heq
    obtain ⟨k, hk, hq⟩ := mem_flatMap.mp hq
    obtain ⟨c, hc, rfl⟩ := mem_map.mp hq
    obtain ⟨k', hk', rfl⟩ := mem_map.mp hq'
    obtain ⟨r, hr⟩ := (hf k hk).2 c hc
    rw [hr, append_assoc] at heq
    have hname : k.1 = k'.1 := (cons.inj (append_cancel_left heq)).1
    rw [mem_filter, decide_eq_true_eq, ← hname] at hk'
    exact hk'.2 (mem_map_of_mem hk)

/-- The changes strictly below the node at `pos`, which is compared with `o`. -/
def inside (pos : List Str) (t : FileInfo) (o : Option FileInfo) : List Change :=
  innerChanges pos t.kids (oldChildrenOf t.val o)

/-- How a child is reported itself, with the changes inside it. -/
def ownChange (t : FileInfo) (o : Option FileInfo) (inner : List Change) : List ChangeType :=
  match o with
  | none => [.add]
  | some told => if told.val.differs t.val ∨ t.val.isDir ∧ inner ≠ [] then [.modify] else []

section Below

variable {pos : List Str} {t : FileInfo} {o : Option FileInfo}

theorem lookup_eq_none_iff_not_mem {B : Type} {ks : List (Str × B)} : ks.lookup n = none ↔ n ∉ ks.map Prod.fst := by
  rw [lookup_eq_none_iff]
  simp only [mem_map, not_exists, not_and, bne_iff_ne, ne_eq]
  exact ⟨fun h k hk he => h k hk he.symm, fun h k hk he => h k hk he.symm⟩

/-- The changes of a child: its own and, behind it, those inside. -/
theorem childChanges_eq {olds : List (Str × FileInfo)} (hnd : (t.kids.map Prod.fst).Nodup) :
    childChanges pos olds (n, t) =
      (ownChange t (olds.lookup n) (inside (pos ++ [n]) t (olds.lookup n))).map (Change.mk (pos ++ [n])) ++
        inside (pos ++ [n]) t (olds.lookup n) := by
  obtain ⟨i, ks⟩ := t
  have hkids : (ks.map Prod.fst).Nodup := hnd
  have hnode := fun added o => addChanges_node (pos ++ [n]) added o (i := i) hkids
  unfold childChanges
  cases hl : olds.lookup n with
  | none => simp only [hnode, if_true]; rfl
  | some told =>
    simp only [hnode, reduceCtorEq, if_false, ownChange, inside]
    show _ = map _ (if _ ∨ i.isDir ∧ innerChanges (pos ++ [n]) ks (oldChildrenOf i (some told)) ≠ []
      then _ else _) ++ innerChanges (pos ++ [n]) ks (oldChildrenOf i (some told))
    cases hdiff : told.val.differs (node i ks).val with
    | true => simp
    | false =>
      by_cases h : i.isDir ∧ innerChanges (pos ++ [n]) ks (oldChildrenOf i (some told)) ≠ []
      · simp [h]
      · have h' : ¬ (innerChanges (pos ++ [n]) ks (oldChildrenOf i (some told)) ≠ [] ∧ i.isDir) := fun h' => h h'.symm
        simp [h, h']

/-- Everything inside lies strictly below. -/
theorem pos_of_mem_inside (t : FileInfo) : t.Keyed → ∀ (pos : List Str) (o : Option FileInfo),
    ∀ c ∈ inside pos t o, ∃ n r, c.pos = pos ++ n :: r := by
  induction t using induct with
  | node i ks ih =>
  intro hkeyed pos o c hc
  rcases mem_append.mp hc with hc | hc
  · obtain ⟨⟨n, t⟩, hk, hc⟩ := mem_flatMap.mp hc
    have ht : t.Keyed := hkeyed.kids _ hk
    rw [childChanges_eq ht.here] at hc
    rcases mem_append.mp hc with hc | hc
    · obtain ⟨k, -, rfl⟩ := mem_map.mp hc
      exact ⟨n, [], rfl⟩
    · obtain ⟨m, r, hr⟩ := ih _ hk ht _ _ c hc
      exact ⟨n, m :: r, by rw [hr]; simp⟩
  · obtain ⟨k, -, rfl⟩ := mem_map.mp hc
    exact ⟨k.1, [], rfl⟩

/-- A change of the child's own path is the child's own change. -/
theorem not_mem_inside_self (ht : t.Keyed) : ⟨pos, k⟩ ∉ inside pos t o := by
  intro h
  obtain ⟨n, r, hr⟩ := pos_of_mem_inside t ht pos o _ h
  simp at hr

/-- What is inside a node is what its child of the first name reports. -/
theorem mem_inside_iff (ht : t.Keyed) {r : List Str} :
    ⟨pos ++ n :: r, k⟩ ∈ inside pos t o ↔
      (∃ c, t.child n = some c ∧
        ⟨pos ++ [n] ++ r, k⟩ ∈ childChanges pos (oldChildrenOf t.val o) (n, c)) ∨
      t.child n = none ∧ r = [] ∧ k = .delete ∧ (oldChildrenOf t.val o).lookup n ≠ none := by
  obtain ⟨i, ks⟩ := t
  rw [inside, innerChanges, mem_append, append_assoc]
  refine or_congr ⟨fun h => ?_, ?_⟩ ⟨fun h => ?_, ?_⟩
  · obtain ⟨⟨m, c⟩, hk, hc⟩ := mem_flatMap.mp h
    have hname : m = n := by
      rw [childChanges_eq (ht.kids _ hk).here] at hc
      rcases mem_append.mp hc with hown | hin
      · obtain ⟨k', -, heq⟩ := mem_map.mp hown
        exact (cons.inj (append_cancel_left (congrArg Change.pos heq))).1
      · obtain ⟨m', r', hr⟩ := pos_of_mem_inside c (ht.kids _ hk) _ _ _ hin
        rw [append_assoc] at hr
        exact (cons.inj (append_cancel_left hr)).1.symm
    subst hname
    exact ⟨c, lookup_of_mem ht.here hk, hc⟩
  · rintro ⟨c, hc, hmem⟩
    exact mem_flatMap.mpr ⟨(n, c), mem_of_lookup hc, hmem⟩
  · obtain ⟨⟨m, told⟩, hk, heq⟩ := mem_map.mp h
    rw [mem_filter, decide_eq_true_eq, ← lookup_eq_none_iff_not_mem] at hk
    obtain ⟨hpos, rfl⟩ := Change.mk.inj heq
    obtain ⟨rfl, rfl⟩ := cons.inj (append_cancel_left hpos)
    refine ⟨hk.2, rfl, rfl, fun hnone => ?_⟩
    exact lookup_eq_none_iff_not_mem.mp hnone (mem_map_of_mem hk.1)
  · rintro ⟨hnone, rfl, rfl, hold⟩
    obtain ⟨told, htold⟩ := Option.ne_none_iff_exists'.mp hold
    refine mem_map.mpr ⟨(n, told), mem_filter.mpr ⟨mem_of_lookup htold, ?_⟩, rfl⟩
    rw [decide_eq_true_eq, ← lookup_eq_none_iff_not_mem]
    exact hnone

end Below

/-- The old node that is looked at for a path, as far as the calls get. -/
def comparedWith : Option FileInfo → Option FileInfo → List Str → Option FileInfo
  | _, o, [] => o
  | new, o, n :: r =>
    comparedWith (new.bind fun t => t.child n) ((new.elim [] fun t => oldChildrenOf t.val o).lookup n) r

/-- Everything above the path is a directory, as `isDir` tells. -/
def DirsAbove (look : List Str → Option Info) (p : List Str) : Prop :=
  ∀ d, d <+: p → d ≠ p → ∃ i, look d = some i ∧ i.isDir = true

theorem dirsAbove_nil (look : List Str → Option Info) : DirsAbove look [] := by
  intro d hd hne
  exact absurd (prefix_nil.mp hd) hne

variable {look : List Str → Option Info}

theorem dirsAbove_cons {r : List Str} : DirsAbove look (n :: r) ↔
    (∃ i, look [] = some i ∧ i.isDir) ∧ DirsAbove (fun d => look (n :: d)) r := by
  constructor
  · intro h
    refine ⟨h [] nil_prefix (cons_ne_nil _ _).symm, fun d hd hne => ?_⟩
    exact h (n :: d) ((prefix_cons_inj n).mpr hd) (by simpa using hne)
  · rintro ⟨htop, hrest⟩ d hd hne
    cases d with
    | nil => exact htop
    | cons m d =>
      obtain ⟨rfl, hdr⟩ := cons_prefix_cons.mp hd
      exact hrest d hdr fun h => hne (congrArg _ h)

theorem DirsAbove.snoc {d : List Str} {i : Info} (h : DirsAbove look d)
    (hi : look d = some i) (hdir : i.isDir) (n : Str) : DirsAbove look (d ++ [n]) := by
  intro d' hd' hne
  have hpre := (prefix_concat_iff.mp hd').resolve_left hne
  by_cases heq : d' = d
  · exact heq ▸ ⟨i, hi, hdir⟩
  · exact h d' hpre heq

theorem oldLook_child (new : Option FileInfo) (n : Str) (d : List Str) :
    oldLook new (n :: d) = oldLook (new.bind fun t => t.child n) d := by
  cases new with
  | none => rfl
  | some t => exact look_cons t n d

/-- An old node is looked at if everything above it is a directory of the new tree. -/
theorem comparedWith_eq_some_iff : ∀ {new o : Option FileInfo} {told : FileInfo},
    comparedWith new o p = some told ↔ DirsAbove (oldLook new) p ∧ (o.bind fun t => t.get p) = some told := by
  induction p with
  | nil =>
    intro new o told
    simp [comparedWith, dirsAbove_nil, get_nil]
  | cons n r ih =>
    intro new o told
    rw [comparedWith, ih, dirsAbove_cons, show (fun d => oldLook new (n :: d)) = _ from funext (oldLook_child new n)]
    have hget : ∀ {t : FileInfo}, t.val.isDir → (o.bind fun t' => t'.get (n :: r)) =
        ((oldChildrenOf t.val o).lookup n).bind fun t' => t'.get r := by
      intro t hd
      rw [oldChildrenOf, if_pos hd]
      cases o with
      | none => rfl
      | some t' => exact get_cons t' n r
    constructor
    · rintro ⟨habove, hold⟩
      obtain ⟨told', htold', -⟩ := Option.bind_eq_some_iff.mp hold
      cases new with
      | none => cases htold'
      | some t =>
        have hd := isDir_of_mem_oldChildren (mem_of_lookup htold')
        exact ⟨⟨⟨t.val, look_nil t, hd⟩, habove⟩, (hget hd).trans hold⟩
    · rintro ⟨⟨⟨i, hi, hd⟩, habove⟩, hold⟩
      cases new with
      | none => cases hi
      | some t =>
        obtain rfl : t.val = i := Option.some.inj ((look_nil t).symm.trans hi)
        exact ⟨habove, (hget hd).symm.trans hold⟩

/-- **What is inside, path by path**: a node that has no old one is added, an old one without a new one is
deleted, and a pair is modified if the two differ or the new one is a directory with changes inside. -/
theorem mem_inside : ∀ {t : FileInfo} {pos : List Str} {o : Option FileInfo} {k : ChangeType},
    t.Keyed → p ≠ [] → (⟨pos ++ p, k⟩ ∈ inside pos t o ↔
      match t.get p with
      | some s => k ∈ ownChange s (comparedWith (some t) o p) (inside (pos ++ p) s (comparedWith (some t) o p))
      | none => k = .delete ∧ comparedWith (some t) o p ≠ none) := by
  induction p with
  | nil => exact fun _ h => absurd rfl h
  | cons n r ih =>
    intro t pos o k ht _
    rw [mem_inside_iff ht, get_cons, comparedWith, Option.bind_some, Option.elim_some]
    cases hc : t.child n with
    | none =>
      simp only [reduceCtorEq, false_and, exists_false, true_and, false_or, Option.bind_none]
      cases r with
      | nil => simp [comparedWith]
      | cons m r =>
        have hnone : comparedWith none ((oldChildrenOf t.val o).lookup n) (m :: r) = none := by
          refine Option.eq_none_iff_forall_ne_some.mpr fun told h => ?_
          obtain ⟨i, hi, -⟩ := (comparedWith_eq_some_iff.mp h).1 [] nil_prefix (cons_ne_nil m r).symm
          cases hi
        simp [hnone]
    | some c =>
      have hkeyed : FileInfo.Keyed c := ht.kids _ (mem_of_lookup hc)
      simp only [Option.some.injEq, exists_eq_left', reduceCtorEq, false_and, or_false, Option.bind_some]
      rw [childChanges_eq hkeyed.here, mem_append]
      cases r with
      | nil =>
        rw [append_nil, get_nil]
        simp [comparedWith, not_mem_inside_self hkeyed]
      | cons m r =>
        have hown : ⟨pos ++ [n] ++ m :: r, k⟩ ∉ (ownChange c ((oldChildrenOf t.val o).lookup n)
            (inside (pos ++ [n]) c ((oldChildrenOf t.val o).lookup n))).map (Change.mk (pos ++ [n])) := by
          intro h
          obtain ⟨k', -, heq⟩ := mem_map.mp h
          have hlen := congrArg length (congrArg Change.pos heq)
          simp at hlen
        rw [or_iff_right hown, ih hkeyed (cons_ne_nil m r)]
        simp only [append_assoc, cons_append, nil_append]

/-! ## What is reported, by what the two trees show -/

section Reported

variable (new old : List Str → Option Info)

/-- The path is reported for what it is itself: it is new, it is gone, or the trees differ there. -/
def Primary (p : List Str) : Prop :=
  new p ≠ none ∧ ¬ (DirsAbove new p ∧ old p ≠ none) ∨ new p = none ∧ DirsAbove new p ∧ old p ≠ none ∨
    DirsAbove new p ∧ ∃ i j, new p = some i ∧ old p = some j ∧ j.differs i = true

/-- What is reported at a path: a directory is modified, too, if something below it is reported. -/
def Reported (p : List Str) : ChangeType → Prop
  | .add => new p ≠ none ∧ ¬ (DirsAbove new p ∧ old p ≠ none)
  | .delete => new p = none ∧ DirsAbove new p ∧ old p ≠ none
  | .modify => DirsAbove new p ∧ ∃ i j, new p = some i ∧ old p = some j ∧
      (j.differs i = true ∨ i.isDir = true ∧ ∃ n r, Primary new old (p ++ n :: r))

variable {new old}

theorem Primary.reported (h : Primary new old p) : ∃ k, Reported new old p k := by
  rcases h with h | h | ⟨habove, i, j, hi, hj, hdiff⟩
  · exact ⟨.add, h⟩
  · exact ⟨.delete, h⟩
  · exact ⟨.modify, habove, i, j, hi, hj, .inl hdiff⟩

/-- What is reported below a path comes from something that is reported for itself. -/
theorem Reported.primary (h : Reported new old p k) : ∃ r, Primary new old (p ++ r) := by
  cases k with
  | add => exact ⟨[], by rw [append_nil]; exact .inl h⟩
  | delete => exact ⟨[], by rw [append_nil]; exact .inr (.inl h)⟩
  | modify =>
    obtain ⟨habove, i, j, hi, hj, hdiff | ⟨-, n, r, hprimary⟩⟩ := h
    · exact ⟨[], by rw [append_nil]; exact .inr (.inr ⟨habove, i, j, hi, hj, hdiff⟩)⟩
    · exact ⟨n :: r, hprimary⟩

end Reported

section Kinds

variable {t : FileInfo} {pos p : List Str} {o : Option FileInfo}

theorem comparedWith_append (p q : List Str) : ∀ new o : Option FileInfo,
    comparedWith new o (p ++ q) = comparedWith (new.bind fun t => t.get p) (comparedWith new o p) q := by
  induction p with
  | nil => intro new o; simp only [nil_append, comparedWith, get_nil, Option.bind_fun_some]
  | cons n p ih =>
    intro new o
    simp only [cons_append, comparedWith, ih, get_cons, Option.bind_assoc]

/-- What is inside a node below is what is inside the whole, below its path. -/
theorem mem_inside_append {q : List Str} {s : FileInfo} (ht : t.Keyed) (hs : t.get p = some s)
    (hq : q ≠ []) : ⟨pos ++ (p ++ q), k⟩ ∈ inside pos t o ↔
      ⟨pos ++ p ++ q, k⟩ ∈ inside (pos ++ p) s (comparedWith (some t) o p) := by
  have hkeyed : FileInfo.Keyed s := ht.get hs
  have hget : t.get (p ++ q) = s.get q := by rw [get_append, hs]; rfl
  rw [mem_inside ht (append_ne_nil_of_right_ne_nil p hq), mem_inside hkeyed hq, hget,
    comparedWith_append, Option.bind_some, hs, append_assoc]

/-- Whether an old node is looked at, by what the trees show. -/
theorem map_comparedWith : DirsAbove t.look p ∧ oldLook o p = (comparedWith (some t) o p).map val ∨
    ¬ DirsAbove t.look p ∧ comparedWith (some t) o p = none := by
  have hold : oldLook o p = (o.bind fun t' => t'.get p).map val := by
    cases o <;> rfl
  have hsome := fun told => @comparedWith_eq_some_iff p (some t) o told
  rcases Classical.em (DirsAbove t.look p) with habove | habove
  · refine .inl ⟨habove, hold.trans (congrArg _ (Option.ext fun told => ?_))⟩
    exact ((hsome told).trans (and_iff_right habove)).symm
  · exact .inr ⟨habove, Option.eq_none_iff_forall_ne_some.mpr fun told h => habove ((hsome told).mp h).1⟩

/-- What is inside, with the changes below a directory as the list has them. -/
theorem mem_inside_look (ht : t.Keyed) (hp : p ≠ []) : ⟨pos ++ p, k⟩ ∈ inside pos t o ↔
    match k with
    | .add => Reported t.look (oldLook o) p .add
    | .delete => Reported t.look (oldLook o) p .delete
    | .modify => DirsAbove t.look p ∧ ∃ i j, t.look p = some i ∧ oldLook o p = some j ∧
        (j.differs i ∨ i.isDir ∧ ∃ n r k, ⟨pos ++ (p ++ n :: r), k⟩ ∈ inside pos t o) := by
  have hbelow : ∀ s, t.get p = some s → (inside (pos ++ p) s (comparedWith (some t) o p) ≠ [] ↔
      ∃ n r k, ⟨pos ++ (p ++ n :: r), k⟩ ∈ inside pos t o) := by
    intro s hs
    simp only [mem_inside_append ht hs (cons_ne_nil _ _)]
    constructor
    · intro hne
      obtain ⟨⟨q, k⟩, hc⟩ := exists_mem_of_ne_nil _ hne
      obtain ⟨n, r, rfl⟩ := pos_of_mem_inside s (ht.get hs) _ _ _ hc
      exact ⟨n, r, k, hc⟩
    · rintro ⟨n, r, k, hc⟩
      exact ne_nil_of_mem hc
  rw [mem_inside ht hp]
  have hlook : t.look p = (t.get p).map val := rfl
  rcases @map_comparedWith t p o with ⟨habove, hold⟩ | ⟨habove, hnone⟩
  · cases hget : t.get p with
    | none => cases k <;> cases hc : comparedWith (some t) o p <;> simp_all [Reported]
    | some s =>
      cases hc : comparedWith (some t) o p with
      | none => cases k <;> simp_all [Reported, ownChange]
      | some told =>
        have hinner := hbelow s hget
        rw [hc] at hinner
        cases k <;> simp_all [Reported, ownChange]
  · cases hget : t.get p with
    | none => cases k <;> simp_all [Reported]
    | some s => cases k <;> simp_all [Reported, ownChange]

/-- Every entry of the list is there because of one at or below it that is reported for itself. -/
theorem primary_of_mem_inside (ht : t.Keyed) (hp : p ≠ [])
    (h : ⟨pos ++ p, k⟩ ∈ inside pos t o) : ∃ r, Primary t.look (oldLook o) (p ++ r) := by
  -- the paths of the list have a greatest length, so the entries below entries come to an end
  have hbound : ∀ q k, ⟨pos ++ q, k⟩ ∈ inside pos t o →
      q.length ≤ ((inside pos t o).map fun c => c.pos.length).sum := by
    intro q k hq
    have hle := le_sum_of_mem (mem_map_of_mem (f := fun c : Change => c.pos.length) hq)
    exact (length_append ▸ Nat.le_add_left _ _ : q.length ≤ (pos ++ q).length).trans hle
  generalize ((inside pos t o).map fun c => c.pos.length).sum = bound at hbound
  induction hm : bound - p.length using Nat.strongRecOn generalizing p k with
  | _ m ih =>
    cases k with
    | add => exact ((mem_inside_look ht hp).mp h : Reported _ _ _ .add).primary
    | delete => exact ((mem_inside_look ht hp).mp h : Reported _ _ _ .delete).primary
    | modify =>
      obtain ⟨habove, i, j, hi, hj, hdiff | ⟨-, n, r, k', hc⟩⟩ := (mem_inside_look ht hp).mp h
      · exact ⟨[], by rw [append_nil]; exact .inr (.inr ⟨habove, i, j, hi, hj, hdiff⟩)⟩
      have hlen := hbound _ _ hc
      rw [length_append, length_cons] at hlen
      obtain ⟨r', hr'⟩ := ih _ (by rw [← hm, length_append, length_cons]; omega) (by simp) hc rfl
      exact ⟨n :: r ++ r', by rw [← append_assoc]; exact hr'⟩

/-- **What is inside**, by what the two trees show. -/
theorem mem_inside_iff_reported (pos : List Str) (ht : t.Keyed) (hp : p ≠ []) :
    ⟨pos ++ p, k⟩ ∈ inside pos t o ↔ Reported t.look (oldLook o) p k := by
  have hbelow : (∃ n r k, ⟨pos ++ (p ++ n :: r), k⟩ ∈ inside pos t o) ↔
      ∃ n r, Primary t.look (oldLook o) (p ++ n :: r) := by
    constructor
    · rintro ⟨n, r, k, hc⟩
      obtain ⟨r', hr'⟩ := primary_of_mem_inside ht (by simp) hc
      exact ⟨n, r ++ r', by rwa [append_assoc] at hr'⟩
    · rintro ⟨n, r, hprimary⟩
      rcases hprimary with hadd | hdel | ⟨habove, i, j, hi, hj, hdiff⟩
      · exact ⟨n, r, .add, (mem_inside_look ht (by simp)).mpr hadd⟩
      · exact ⟨n, r, .delete, (mem_inside_look ht (by simp)).mpr hdel⟩
      · exact ⟨n, r, .modify, (mem_inside_look ht (by simp)).mpr ⟨habove, i, j, hi, hj, .inl hdiff⟩⟩
  rw [mem_inside_look ht hp]
  cases k with
  | add => rfl
  | delete => rfl
  | modify => simp only [hbelow, Reported]

end Kinds

/-- The changes inside have no path twice. -/
theorem inside_nodup (t : FileInfo) : t.Keyed → ∀ (pos : List Str) (o : Option FileInfo),
    (∀ t', o = some t' → t'.Keyed) → ((inside pos t o).map Change.pos).Nodup := by
  induction t using induct with
  | node i ks ih =>
  intro ht pos o ho
  obtain ⟨hnd, hkeyed⟩ := oldChildren_all (i := i) (fun _ _ h => h) ho
  refine inner_nodup ht.here hnd fun k hk => ?_
  have hk' : FileInfo.Keyed k.2 := ht.kids k hk
  obtain ⟨n, c⟩ := k
  have hbelow := pos_of_mem_inside c hk' (pos ++ [n]) ((oldChildrenOf i o).lookup n)
  have hold : ∀ t', (oldChildrenOf i o).lookup n = some t' → t'.Keyed := fun t' h => hkeyed _ (mem_of_lookup h)
  rw [childChanges_eq hk'.here]
  constructor
  · rw [map_append, nodup_append]
    refine ⟨?_, ih _ hk hk' _ _ hold, ?_⟩
    · unfold ownChange
      split
      · simp
      · split <;> simp
    · intro q hq q' hq' heq
      obtain ⟨c₁, hc₁, rfl⟩ := mem_map.mp hq
      obtain ⟨k, -, rfl⟩ := mem_map.mp hc₁
      obtain ⟨c₂, hc₂, rfl⟩ := mem_map.mp hq'
      obtain ⟨m, r, hr⟩ := hbelow c₂ hc₂
      rw [hr] at heq
      simp at heq
  · intro c₁ hc₁
    rcases mem_append.mp hc₁ with hc₁ | hc₁
    · obtain ⟨k, -, rfl⟩ := mem_map.mp hc₁
      exact ⟨[], by simp⟩
    · obtain ⟨m, r, hr⟩ := hbelow c₁ hc₁
      exact ⟨m :: r, hr⟩

/-! ## What the list holds -/

variable {t info oldInfo : FileInfo}

/-- In a tree in which only directories have children, there are directories above every path. -/
theorem FileInfo.Wf.dirsAbove (h : t.Wf) (hp : t.look p = some i) : DirsAbove t.look p := by
  rintro d ⟨q, rfl⟩ hne
  have hq : q ≠ [] := fun hnil => hne (by rw [hnil, append_nil])
  obtain ⟨i, ks, hi, hwf, hks⟩ := NameTree.All.above (p := d) h hq (by simp [hp])
  exact ⟨i, hi, hwf.2.2 hks⟩

theorem FileInfo.Wf.keyed (h : t.Wf) : t.Keyed := NameTree.All.mono (fun _ _ h => h.1) h

/-- The changes between two roots are those inside: the root itself is never in the list. -/
theorem changes_eq_inside (h : info.Keyed) : changes info oldInfo = inside [] info (some oldInfo) := by
  obtain ⟨i, children⟩ := info
  have hnd : (children.map Prod.fst).Nodup := h.here
  rw [changes, addChanges_node [] false (some oldInfo) hnd]
  simp only [reduceCtorEq, if_false, ne_eq, not_true, and_false]
  rfl

/-- **What `ChangesDirs` reports** of two trees. -/
theorem mem_changes (h : info.Keyed) :
    ⟨p, k⟩ ∈ changes info oldInfo ↔ p ≠ [] ∧ Reported info.look oldInfo.look p k := by
  rw [changes_eq_inside h]
  rcases eq_or_ne p [] with rfl | hp
  · exact iff_of_false (not_mem_inside_self h) fun h => h.1 rfl
  · rw [and_iff_right hp]
    exact mem_inside_iff_reported [] h hp

theorem changes_nodup (h : info.Keyed) (h' : oldInfo.Keyed) : ((changes info oldInfo).map Change.pos).Nodup := by
  rw [changes_eq_inside h]
  exact inside_nodup info h [] _ fun t ht => Option.some.inj ht ▸ h'

/-- Trees with the same paths that nowhere differ below the root have no changes. -/
theorem changes_nil (h : info.Wf) (hpaths : ∀ r, info.look r = none ↔ oldInfo.look r = none)
    (hsame : ∀ n r i j, info.look (n :: r) = some i → oldInfo.look (n :: r) = some j → j.differs i = false) :
    changes info oldInfo = [] := by
  rw [eq_nil_iff_forall_not_mem]
  rintro ⟨p, k⟩ hc
  obtain ⟨hp, hreported⟩ := (mem_changes h.keyed).mp hc
  obtain ⟨n, r, rfl⟩ := exists_cons_of_ne_nil hp
  obtain ⟨s, hprimary⟩ := hreported.primary
  rcases hprimary with ⟨hnew, hold⟩ | ⟨hnew, -, hold⟩ | ⟨-, i, j, hi, hj, hdiff⟩
  · obtain ⟨i, hi⟩ := Option.ne_none_iff_exists'.mp hnew
    exact hold ⟨h.dirsAbove hi, fun hnone => hnew ((hpaths _).mpr hnone)⟩
  · exact hold ((hpaths _).mp hnew)
  · rw [hsame n (r ++ s) i j hi hj] at hdiff
    cases hdiff

end DockerEngine.Archive
