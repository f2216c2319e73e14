import DockerEngine.Archive.Export

/-!
# The list of changes between two roots

`new.Changes(old)` for trees as `collectFileInfo` makes them: a root without data of its own and, below it,
file infos by name. Every list of children is the order in which the map is ranged over.

Two questions about the list. Is it what its callers take it for (`changes_exact`): complete, without a path
twice, and with every directory in front of what is inside it? It is, if only directories have children; a
tree in which something else has some is compared as if the old tree had nothing there. And where are
deletions reported (`deletes_in_directories_iff`)? `isDir` tests one bit of the mode, which the type codes of
block devices and sockets have too, so a directory that became one of these is taken for a directory still.
-/

namespace DockerEngine.Archive

open Filepath UnixFs List NameTree

/-! ## Roots -/

/-- The data of a root, which is not read: `isDir` holds of a file info without a parent. -/
def rootData : Info := ⟨⟨sIFDIR, 0, 0, 0, 0, ⟨0, 0⟩⟩, []⟩

/-- `newRootFileInfo` with what was collected below it. -/
structure RootInfo where
  children : List (Str × FileInfo)
  named : (node rootData children).All fun _ ks => (ks.map Prod.fst).Nodup ∧ ∀ k ∈ ks, Proper k.1

variable {p : List Str}

namespace RootInfo

/-- The tree of a root. -/
def info (t : RootInfo) : FileInfo := .node rootData t.children

/-- What the tree has at a path. -/
def at? (t : RootInfo) (p : List Str) : Option Info := t.info.look p

theorem keyed (t : RootInfo) : t.info.Keyed := NameTree.All.mono (fun _ _ h => h.1) t.named

/-- The names on a path of the tree are names of files. -/
theorem proper (t : RootInfo) (h : t.at? p ≠ none) : AllProper p :=
  NameTree.All.names (NameTree.All.mono (fun _ _ h => h.2) t.named) h

/-- `new.Changes(old)`. -/
def changes (new old : RootInfo) : List Change := Archive.changes new.info old.info

end RootInfo

/-- The file type is that of a directory. -/
def Info.isDirectory (i : Info) : Prop := i.stat.mode &&& sIFMT = sIFDIR

instance (i : Info) : Decidable i.isDirectory := inferInstanceAs (Decidable (_ = _))

/-- The code of directories has the bit that `isDir` tests. -/
theorem Info.isDirectory.isDir {i : Info} (h : i.isDirectory) : i.isDir := by
  have hbit : i.stat.mode &&& sIFDIR = sIFDIR := by
    have hmask : sIFMT &&& sIFDIR = sIFDIR := by decide
    calc i.stat.mode &&& sIFDIR = (i.stat.mode &&& sIFMT) &&& sIFDIR := by rw [Nat.and_assoc, hmask]
      _ = sIFDIR := by rw [show i.stat.mode &&& sIFMT = sIFDIR from h, Nat.and_self]
  rw [Info.isDir, hbit]
  decide

/-! ## Parents first -/

/-- Every change below an entry of `base` comes after a change of the directory it is in. -/
def ParentFirst (base : List Str) (cs : List Change) : Prop :=
  ∀ l₁ c l₂ d n, cs = l₁ ++ c :: l₂ → c.pos = d ++ [n] → base <+: d → d ≠ base → ∃ c' ∈ l₁, c'.pos = d

namespace ParentFirst

variable {base : List Str}

/-- A place in a list that was put together is a place in one of its parts. -/
theorem split_append {xs ys l₁ l₂ : List Change} {c : Change} (h : xs ++ ys = l₁ ++ c :: l₂) :
    (∃ ms, xs = l₁ ++ c :: ms) ∨ ∃ ms, l₁ = xs ++ ms ∧ ys = ms ++ c :: l₂ := by
  rcases append_eq_append_iff.mp h with ⟨ms, hl, hys⟩ | ⟨ms, hxs, hms⟩
  · exact .inr ⟨ms, hl, hys⟩
  · cases ms with
    | nil => exact .inr ⟨[], by simpa using hxs.symm, hms.symm⟩
    | cons m ms =>
      obtain ⟨rfl, -⟩ := cons.inj hms
      exact .inl ⟨ms, hxs⟩

theorem append {xs ys : List Change} (hx : ParentFirst base xs) (hy : ParentFirst base ys) :
    ParentFirst base (xs ++ ys) := by
  intro l₁ c l₂ d n hsplit hpos hbase hne
  rcases split_append hsplit with ⟨ms, hxs⟩ | ⟨ms, rfl, hys⟩
  · exact hx l₁ c ms d n hxs hpos hbase hne
  · obtain ⟨c', hc', hd⟩ := hy ms c l₂ d n hys hpos hbase hne
    exact ⟨c', mem_append_right _ hc', hd⟩

theorem flatMap {κ : Type} {f : κ → List Change} (ks : List κ) (h : ∀ k ∈ ks, ParentFirst base (f k)) :
    ParentFirst base (ks.flatMap f) := by
  induction ks with
  | nil => intro l₁ c l₂ d n hsplit; simp at hsplit
  | cons k ks ih =>
    rw [flatMap_cons]
    exact (h k mem_cons_self).append (ih (forall_mem_cons.mp h).2)

/-- Changes of entries of `base` itself may stand anywhere. -/
theorem of_entries {cs : List Change} (h : ∀ c ∈ cs, ∃ n, c.pos = base ++ [n]) : ParentFirst base cs := by
  intro l₁ c l₂ d n hsplit hpos hbase hne
  obtain ⟨m, hm⟩ := h c (hsplit ▸ by simp)
  exact absurd (append_inj_left' (hpos.symm.trans hm) rfl) hne

/-- An entry of `base` may stand in front of what is inside it. -/
theorem entry {n : Str} {own cs : List Change} (hown : ∀ c ∈ own, c.pos = base ++ [n]) (hne : cs ≠ [] → own ≠ [])
    (hcs : ParentFirst (base ++ [n]) cs) (hbelow : ∀ c ∈ cs, ∃ m r, c.pos = base ++ [n] ++ m :: r) :
    ParentFirst base (own ++ cs) := by
  intro l₁ c l₂ d k hsplit hpos hbase hd
  rcases split_append hsplit with ⟨ms, hms⟩ | ⟨ms, rfl, hms⟩
  · exact of_entries (fun c hc => ⟨n, hown c hc⟩) l₁ c ms d k hms hpos hbase hd
  have hc : c ∈ cs := by rw [hms]; simp
  obtain ⟨m, r, hr⟩ := hbelow c hc
  -- the directory the change is in is the entry or lies below it
  have hentry : base ++ [n] <+: d := by
    have hpre : base ++ [n] <+: d ++ [k] := by rw [← hpos, hr]; exact prefix_append _ _
    rcases prefix_concat_iff.mp hpre with heq | hpre
    · rw [← hpos, hr] at heq
      simp at heq
    · exact hpre
  by_cases heq : d = base ++ [n]
  · obtain ⟨c', hc'⟩ := exists_mem_of_ne_nil _ (hne (ne_nil_of_mem hc))
    exact ⟨c', mem_append_left _ hc', (hown c' hc').trans heq.symm⟩
  · obtain ⟨c', hc', hd'⟩ := hcs ms c l₂ d k hms hpos hentry heq
    exact ⟨c', mem_append_right _ hc', hd'⟩

end ParentFirst

/-- Where only directories have children, a child with changes inside is reported itself. -/
theorem ownChange_ne_nil {pos : List Str} {t : FileInfo} {o : Option FileInfo}
    (ht : t.kids ≠ [] → t.val.isDir) (h : inside pos t o ≠ []) : ownChange t o (inside pos t o) ≠ [] := by
  cases o with
  | none => simp [ownChange]
  | some told =>
    have hdir : t.val.isDir := by
      obtain ⟨c, hc⟩ := exists_mem_of_ne_nil _ h
      rcases mem_append.mp hc with hc | hc
      · obtain ⟨k, hk, -⟩ := mem_flatMap.mp hc
        exact ht (ne_nil_of_mem hk)
      · obtain ⟨k, hk, -⟩ := mem_map.mp hc
        exact isDir_of_mem_oldChildren (mem_filter.mp hk).1
    simp [ownChange, hdir, h]

/-- The changes inside a node, parents first. -/
theorem inside_parentFirst (t : FileInfo) : t.Keyed → (t.All fun i ks => ks ≠ [] → i.isDir) →
    ∀ (pos : List Str) (o : Option FileInfo), ParentFirst pos (inside pos t o) := by
  induction t using induct with
  | node i ks ih =>
  intro hkeyed hdirs pos o
  refine (ParentFirst.flatMap _ ?_).append (ParentFirst.of_entries ?_)
  · rintro ⟨n, c⟩ hk
    have hc : FileInfo.Keyed c := hkeyed.kids _ hk
    rw [childChanges_eq hc.here]
    refine ParentFirst.entry (fun c' hc' => ?_) (fun hne hnil => ?_) (ih _ hk hc (hdirs.kids _ hk) _ _)
      (pos_of_mem_inside c hc _ _)
    · obtain ⟨k, -, rfl⟩ := mem_map.mp hc'
      rfl
    · exact ownChange_ne_nil (hdirs.kids _ hk).here hne (map_eq_nil_iff.mp hnil)
  · intro c hc
    obtain ⟨k, -, rfl⟩ := mem_map.mp hc
    exact ⟨k.1, rfl⟩

/-! ## The whole list -/

/-- Only directories have children. -/
def RootInfo.OnlyDirectories (t : RootInfo) : Prop := t.info.All fun i ks => ks ≠ [] → i.isDirectory

/-- What a list of changes between two roots is to be: no path is in it twice; added are the paths that are
only in the new tree; modified are those at which the trees differ, and the directories with a change below;
and every change not at the top comes after that of the directory it is in. -/
structure ExactChanges (new old : RootInfo) (cs : List Change) : Prop where
  nodup : (cs.map Change.path).Nodup
  add_iff : ∀ p, ⟨p, .add⟩ ∈ cs ↔ new.at? p ≠ none ∧ old.at? p = none
  modify_iff : ∀ p, p ≠ [] → (⟨p, .modify⟩ ∈ cs ↔ ∃ i j, new.at? p = some i ∧ old.at? p = some j ∧
    (j.differs i = true ∨ i.isDirectory ∧ ∃ c ∈ cs, ∃ n r, c.pos = p ++ n :: r))
  parent_first : ∀ l₁ c l₂ d n, cs = l₁ ++ c :: l₂ → c.pos = d ++ [n] → d ≠ [] → ∃ c' ∈ l₁, c'.pos = d

section Exact

variable {new old : RootInfo} {k : ChangeType}

variable {t : RootInfo} {r : List Str} {n : Str} {i : Info}

theorem RootInfo.OnlyDirectories.wf (h : t.OnlyDirectories) : t.info.Wf :=
  NameTree.All.mono (fun _ _ h => ⟨h.1.1, h.1.2, fun hne => (h.2 hne).isDir⟩) (NameTree.All.and t.named h)

/-- What has something below is a directory. -/
theorem RootInfo.OnlyDirectories.isDirectory (h : t.OnlyDirectories) (hbelow : t.at? (p ++ n :: r) ≠ none) (hp : t.at? p = some i) : i.isDirectory := by
  obtain ⟨j, ks, hj, hdir, hne⟩ := NameTree.All.above h (cons_ne_nil n r) hbelow
  cases hp.symm.trans hj
  exact hdir hne

/-- A path is in the list if it is reported. -/
theorem mem_changes_iff :
    ⟨p, k⟩ ∈ new.changes old ↔ p ≠ [] ∧ Reported new.at? old.at? p k := mem_changes new.keyed

/-- What is reported is a path of one of the trees. -/
theorem Reported.there (h : Reported new.at? old.at? p k) : new.at? p ≠ none ∨ old.at? p ≠ none := by
  cases k with
  | add => exact .inl h.1
  | delete => exact .inr h.2.2
  | modify =>
    obtain ⟨-, i, j, hi, -⟩ := h
    exact .inl (Option.ne_none_iff_exists'.mpr ⟨i, hi⟩)

theorem mem_changes_proper {c : Change} (hc : c ∈ new.changes old) : AllProper c.pos :=
  (mem_changes_iff.mp hc).2.there.elim new.proper old.proper

theorem changes_path_nodup : ((new.changes old).map Change.path).Nodup := by
  have hpos : ((new.changes old).map Change.pos).Nodup := changes_nodup new.keyed old.keyed
  have hpath : (new.changes old).map Change.path = ((new.changes old).map Change.pos).map absPath := by
    rw [map_map]; rfl
  rw [hpath]
  refine hpos.map_on fun p hp q hq heq => ?_
  obtain ⟨c, hc, rfl⟩ := mem_map.mp hp
  obtain ⟨c', hc', rfl⟩ := mem_map.mp hq
  exact absPath_injective (mem_changes_proper hc) (mem_changes_proper hc') heq

section

variable (hnew : new.OnlyDirectories)
include hnew

theorem add_mem_changes_iff (p : List Str) :
    ⟨p, .add⟩ ∈ new.changes old ↔ new.at? p ≠ none ∧ old.at? p = none := by
  rw [mem_changes_iff]
  constructor
  · rintro ⟨-, hthere, hold⟩
    obtain ⟨i, hi⟩ := Option.ne_none_iff_exists'.mp hthere
    exact ⟨hthere, not_not.mp fun h => hold ⟨hnew.wf.dirsAbove hi, h⟩⟩
  · rintro ⟨hthere, hold⟩
    refine ⟨?_, hthere, fun h => h.2 hold⟩
    rintro rfl
    rw [RootInfo.at?, look_nil] at hold
    cases hold

/-- A directory is what has something below it in the list, if the trees do not differ there. -/
theorem isDirectory_of_below (hold : old.OnlyDirectories) {j : Info}
    (hi : new.at? p = some i) (hj : old.at? p = some j) (hsame : j.differs i = false) (h : Reported new.at? old.at? (p ++ n :: r) k) : i.isDirectory := by
  rcases h.there with hthere | hthere
  · exact hnew.isDirectory hthere hi
  have hmode : j.stat.mode = i.stat.mode := by
    simp only [Info.differs, statDifferent, Bool.or_eq_false_iff, bne_eq_false_iff_eq] at hsame
    exact hsame.1.1.1.1.1
  rw [Info.isDirectory, ← hmode]
  exact hold.isDirectory hthere hj

theorem modify_mem_changes_iff (hold : old.OnlyDirectories)
    (hp : p ≠ []) : ⟨p, .modify⟩ ∈ new.changes old ↔ ∃ i j, new.at? p = some i ∧ old.at? p = some j ∧
      (j.differs i ∨ i.isDirectory ∧ ∃ c ∈ new.changes old, ∃ n r, c.pos = p ++ n :: r) := by
  rw [mem_changes_iff, and_iff_right hp]
  constructor
  · rintro ⟨-, i, j, hi, hj, h⟩
    refine ⟨i, j, hi, hj, ?_⟩
    cases hdiff : j.differs i with
    | true => exact .inl rfl
    | false =>
      obtain ⟨-, n, r, hprimary⟩ := h.resolve_left (by simp [hdiff])
      obtain ⟨k, hk⟩ := hprimary.reported
      exact .inr ⟨isDirectory_of_below hnew hold hi hj hdiff hk, ⟨_, k⟩, mem_changes_iff.mpr ⟨by simp, hk⟩, n, r, rfl⟩
  · rintro ⟨i, j, hi, hj, h⟩
    refine ⟨hnew.wf.dirsAbove hi, i, j, hi, hj, h.imp_right ?_⟩
    rintro ⟨hdir, ⟨q, k⟩, hc, n, r, rfl⟩
    obtain ⟨r', hr'⟩ := (mem_changes_iff.mp hc).2.primary
    exact ⟨hdir.isDir, n, r ++ r', by rwa [append_assoc] at hr'⟩

end

/-- **The list of changes is exact** if only directories have children. -/
theorem changes_exact (hnew : new.OnlyDirectories) (hold : old.OnlyDirectories) :
    ExactChanges new old (new.changes old) where
  nodup := changes_path_nodup
  add_iff := add_mem_changes_iff hnew
  modify_iff _ hp := modify_mem_changes_iff hnew hold hp
  parent_first l₁ c l₂ d n hsplit hpos hd := by
    have hfirst := inside_parentFirst new.info new.keyed
      (NameTree.All.mono (fun _ _ h hne => (h hne).isDir) hnew) [] (some old.info)
    rw [← changes_eq_inside new.keyed] at hfirst
    exact hfirst l₁ c l₂ d n hsplit hpos nil_prefix hd

end Exact

/-- A tree of one entry `f`, with one entry `x` of that where it is asked for. -/
def oneEntry (i : Info) (within : List Info) : RootInfo where
  children := [("f".toList, .node i (within.take 1 |>.map fun j => ("x".toList, .node j [])))]
  named := by
    refine .node ⟨by simp, by simp; decide⟩ fun k hk => ?_
    rw [mem_singleton.mp hk]
    refine .node ⟨?_, ?_⟩ fun k hk => ?_
    · cases within <;> simp
    · cases within
      · simp
      · simp; decide
    · obtain ⟨j, -, rfl⟩ := mem_map.mp hk
      exact .node ⟨by simp, by simp⟩ (by simp)

/-- A file with the given mode and nothing else. -/
def ofMode (mode : Nat) : Info := ⟨⟨mode, 0, 0, 0, 0, ⟨0, 0⟩⟩, []⟩

/-- A directory `f` with a file `x` that was changed: the directory comes first. -/
theorem changes_exact_oneEntry :
    ExactChanges (oneEntry (ofMode 0o040755) [ofMode 0o100600]) (oneEntry (ofMode 0o040755) [ofMode 0o100644])
      ((oneEntry (ofMode 0o040755) [ofMode 0o100600]).changes (oneEntry (ofMode 0o040755) [ofMode 0o100644])) := by
  have hdirs : ∀ m, (oneEntry (ofMode 0o040755) [ofMode m]).OnlyDirectories := by
    intro m
    refine .node (fun _ => by decide) fun k hk => ?_
    rw [mem_singleton.mp hk]
    refine .node (fun _ => by decide) fun k hk => ?_
    rw [mem_singleton.mp hk]
    exact .node (absurd rfl) (by simp)
  exact changes_exact (hdirs _) (hdirs _)

/-- A regular file that has a child in both trees: the child is reported as new. -/
theorem changes_of_file_with_child :
    ¬ ExactChanges (oneEntry (ofMode 0o100644) [ofMode 0o100644]) (oneEntry (ofMode 0o100644) [ofMode 0o100644])
      ((oneEntry (ofMode 0o100644) [ofMode 0o100644]).changes (oneEntry (ofMode 0o100644) [ofMode 0o100644])) := by
  intro h
  have hmem := (h.add_iff ["f".toList, "x".toList]).mp (by decide)
  exact absurd hmem.2 (by decide)

/-! ## Deletions -/

/-- An entry of a directory of the old tree that the new one does not have. -/
def Gone (new old : RootInfo) (d : List Str) (n : Str) : Prop := old.at? (d ++ [n]) ≠ none ∧ new.at? (d ++ [n]) = none

/-- Deletions are reported where the entry is gone and what it was in is, by its file type, a directory of the
new tree. -/
def DeletesInDirectories (new old : RootInfo) : Prop :=
  ∀ p, ⟨p, .delete⟩ ∈ new.changes old ↔ old.at? p ≠ none ∧ new.at? p = none ∧
    ∃ d n i, p = d ++ [n] ∧ new.at? d = some i ∧ i.isDirectory

/-- Where an entry is gone, the bit that `isDir` tests tells directories from the rest: a node of the new tree
that has it, with all nodes above, is a directory, and nothing above a directory lacks it. -/
structure BitTells (new old : RootInfo) : Prop where
  directory : ∀ d n i, Gone new old d n → new.at? d = some i → DirsAbove new.at? (d ++ [n]) → i.isDirectory
  above : ∀ d n i, Gone new old d n → new.at? d = some i → i.isDirectory → DirsAbove new.at? (d ++ [n])

/-- **Deletions are exact** in the bit of directories. -/
theorem delete_mem_changes_iff {new old : RootInfo} (p : List Str) : ⟨p, .delete⟩ ∈ new.changes old ↔
    ∃ d n, p = d ++ [n] ∧ Gone new old d n ∧ DirsAbove new.at? p := by
  rw [mem_changes_iff]
  constructor
  · rintro ⟨hp, hnew, habove, hold⟩
    refine ⟨p.dropLast, p.getLast hp, (dropLast_append_getLast hp).symm, ?_, habove⟩
    rw [Gone, dropLast_append_getLast hp]
    exact ⟨hold, hnew⟩
  · rintro ⟨d, n, rfl, hgone, habove⟩
    exact ⟨by simp, hgone.2, habove, hgone.1⟩

/-- **Deletions are reported inside directories** exactly if, where entries are gone, the bit tells directories
from the rest. -/
theorem deletes_in_directories_iff (new old : RootInfo) : DeletesInDirectories new old ↔ BitTells new old := by
  constructor
  · intro h
    refine ⟨fun d n i hgone hi habove => ?_, fun d n i hgone hi hdir => ?_⟩
    · obtain ⟨-, -, d', n', j, heq, hj, hdir⟩ :=
        (h (d ++ [n])).mp ((delete_mem_changes_iff _).mpr ⟨d, n, rfl, hgone, habove⟩)
      obtain rfl : d = d' := append_inj_left' heq rfl
      rw [hi] at hj
      exact Option.some.inj hj ▸ hdir
    · have hmem := (h (d ++ [n])).mpr ⟨hgone.1, hgone.2, d, n, i, rfl, hi, hdir⟩
      obtain ⟨-, -, -, -, habove⟩ := (delete_mem_changes_iff _).mp hmem
      exact habove
  · intro h p
    rw [delete_mem_changes_iff]
    constructor
    · rintro ⟨d, n, rfl, hgone, habove⟩
      obtain ⟨i, hi, -⟩ := habove d ⟨[n], rfl⟩ (by simp)
      exact ⟨hgone.1, hgone.2, d, n, i, rfl, hi, h.directory d n i hgone hi habove⟩
    · rintro ⟨hold, hnew, d, n, i, rfl, hi, hdir⟩
      exact ⟨d, n, rfl, ⟨hold, hnew⟩, h.above d n i ⟨hold, hnew⟩ hi hdir⟩

/-- A directory that became a block device: the deletion of its entry is reported. -/
theorem deletes_in_block_device :
    ⟨["f".toList, "x".toList], .delete⟩ ∈
        (oneEntry (ofMode 0o060660) []).changes (oneEntry (ofMode 0o040755) [ofMode 0o100644]) ∧
      ¬ DeletesInDirectories (oneEntry (ofMode 0o060660) []) (oneEntry (ofMode 0o040755) [ofMode 0o100644]) := by
  have hmem : ⟨["f".toList, "x".toList], .delete⟩ ∈
      (oneEntry (ofMode 0o060660) []).changes (oneEntry (ofMode 0o040755) [ofMode 0o100644]) := by decide
  refine ⟨hmem, fun h => ?_⟩
  obtain ⟨-, -, d, n, i, heq, hi, hdir⟩ := (h _).mp hmem
  obtain rfl : ["f".toList] = d := append_inj_left' heq rfl
  obtain rfl : ofMode 0o060660 = i := Option.some.inj hi
  exact absurd hdir (by decide)

end DockerEngine.Archive
