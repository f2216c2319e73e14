import DockerEngine.Archive.Unpack

/-!
# Renaming the entries of an archive

`rebaseArchiveEntries` of `pkg/archive/copy.go` renames an archive that is copied to a path with another base name.
The archive is one that `TarResource` makes of a source with the old base name (`OfResource`): every name begins
with it, and a hard link names an entry before it.

Names are rewritten and the targets of hard links are not. So the output is the renamed archive, and a consistent
one if there is no hard link or the base name stays the same; for base names without a slash only then
(`rebase_consistent_iff`). Errors of the tar reader and writer are left out.
-/

namespace DockerEngine.Archive

open Filepath List Entry

/-- `strings.Replace(s, old, new, 1)`. -/
def replaceFirst (old new : Str) : Str → Str
  | [] => if old = [] then new else []
  | c :: s => if old.isPrefixOf (c :: s) then new ++ (c :: s).drop old.length else c :: replaceFirst old new s

/-- `rebaseArchiveEntries`. The base name of the root directory is its slash. -/
def rebaseArchiveEntries (content : List Entry) (oldBase newBase : Str) : List Entry :=
  let oldBase := if oldBase = ['/'] then [] else oldBase
  content.map fun e => { e with hdr := { e.hdr with name := replaceFirst oldBase newBase e.hdr.name } }

/-- Every hard link names an entry before it. -/
def LinksBack (entries : List Entry) : Prop :=
  ∀ i < entries.length, ∀ e ∈ entries[i]?, e.hdr.typeflag = .link → ∃ t ∈ entries.take i, t.hdr.name = e.hdr.linkname

instance (entries : List Entry) : Decidable (LinksBack entries) := inferInstanceAs (Decidable (∀ i < _, _))

/-- An archive that `TarResource` makes of a source with this base name, other than the root directory. -/
structure OfResource (srcBase : Str) (entries : List Entry) : Prop where
  base : srcBase ≠ [] ∧ '/' ∉ srcBase
  names : ∀ e ∈ entries, e.hdr.name = srcBase ∨ srcBase ++ ['/'] <+: e.hdr.name
  links : LinksBack entries

/-- The entry with the beginning of its name replaced. -/
def Entry.renamed (srcBase dstBase : Str) (e : Entry) : Entry :=
  { e with hdr := { e.hdr with name := dstBase ++ e.hdr.name.drop srcBase.length } }

/-- The output has the same entries under the new base name, and is consistent. -/
def Consistent (entries : List Entry) (srcBase dstBase : Str) : Prop :=
  rebaseArchiveEntries entries srcBase dstBase = entries.map (renamed srcBase dstBase) ∧
    LinksBack (rebaseArchiveEntries entries srcBase dstBase)

section Rebase

variable {srcBase : Str} {entries : List Entry}

/-- A base name is what stands before the first slash. -/
theorem takeWhile_base {base r : Str} (hbase : '/' ∉ base) (hr : ∀ c ∈ r.head?, c = '/') :
    (base ++ r).takeWhile (· ≠ '/') = base := by
  rw [takeWhile_append_of_pos (Words.all_ne hbase)]
  cases r with
  | nil => simp
  | cons c r => simp [hr c rfl]

section

variable (h : OfResource srcBase entries)
include h

/-- A name is the base name and nothing, or a slash and what follows it. -/
theorem OfResource.name_eq {e : Entry} (he : e ∈ entries) :
    ∃ r, e.hdr.name = srcBase ++ r ∧ ∀ c ∈ r.head?, c = '/' := by
  rcases h.names e he with hname | ⟨s, hname⟩
  · exact ⟨[], by simpa using hname, nofun⟩
  · rw [append_assoc] at hname
    exact ⟨'/' :: s, hname.symm, fun c hc => (Option.some.inj hc).symm⟩

/-- The leading base name is replaced, wherever else it occurs in a name. -/
theorem OfResource.rebased (dstBase : Str) :
    rebaseArchiveEntries entries srcBase dstBase = entries.map (renamed srcBase dstBase) := by
  have hne : srcBase ≠ ['/'] := by
    intro heq
    exact h.base.2 (by simp [heq])
  simp only [rebaseArchiveEntries, if_neg hne]
  apply map_congr_left
  intro e he
  obtain ⟨r, hr, -⟩ := h.name_eq he
  obtain ⟨c, s, rfl⟩ := exists_cons_of_ne_nil h.base.1
  rw [renamed, hr, cons_append, replaceFirst, ← cons_append,
    if_pos (List.isPrefixOf_iff_prefix.mpr (prefix_append _ r)), drop_left]

theorem OfResource.linksBack_iff (dstBase : Str) :
    Consistent entries srcBase dstBase ↔ ∀ i < entries.length, ∀ e ∈ entries[i]?, e.hdr.typeflag = .link →
      ∃ t ∈ entries.take i, (t.renamed srcBase dstBase).hdr.name = e.hdr.linkname := by
  rw [Consistent, h.rebased, LinksBack]
  simp [renamed, ← map_take]

end

end Rebase

/-- **When renaming keeps an archive consistent**: if it has no hard links or keeps its base name, and for a base
name without a slash only then. -/
theorem rebase_consistent_iff {srcBase : Str} {entries : List Entry} (h : OfResource srcBase entries)
    (dstBase : Str) :
    ((∀ e ∈ entries, e.hdr.typeflag ≠ .link) ∨ dstBase = srcBase → Consistent entries srcBase dstBase) ∧
      ('/' ∉ dstBase → Consistent entries srcBase dstBase →
        (∀ e ∈ entries, e.hdr.typeflag ≠ .link) ∨ dstBase = srcBase) := by
  rw [h.linksBack_iff]
  refine ⟨?_, fun hslash hlinks => ?_⟩
  · rintro (hnone | rfl) i hi e he hlink
    · exact absurd hlink (hnone e (mem_of_getElem? he))
    obtain ⟨t, ht, hname⟩ := h.links i hi e he hlink
    obtain ⟨r, hr, -⟩ := h.name_eq (mem_of_mem_take ht)
    refine ⟨t, ht, ?_⟩
    rw [← hname, renamed, hr, drop_left]
  · by_contra hnot
    rw [not_or] at hnot
    obtain ⟨hsome, hne⟩ := hnot
    obtain ⟨e, he, hlink⟩ : ∃ e ∈ entries, e.hdr.typeflag = .link := by simpa using hsome
    obtain ⟨i, hi, hat⟩ := getElem_of_mem he
    have he' : e ∈ entries[i]? := by rw [getElem?_eq_getElem hi, hat]; rfl
    -- the target has the old base name, and the entries before the link have the new one
    obtain ⟨t, ht, hname⟩ := h.links i hi e he' hlink
    obtain ⟨t', ht', hname'⟩ := hlinks i hi e he' hlink
    obtain ⟨r, hr, hhead⟩ := h.name_eq (mem_of_mem_take ht)
    obtain ⟨r', hr', hhead'⟩ := h.name_eq (mem_of_mem_take ht')
    rw [← hname, hr, renamed, hr', drop_left] at hname'
    have hbases := congrArg (takeWhile (· ≠ '/')) hname'
    rw [takeWhile_base hslash hhead', takeWhile_base h.base.2 hhead] at hbases
    exact hne hbases

/-! ### A directory with two names of one file -/

/-- A header with only a name, a type and a target. -/
def entryOf (name : String) (flag : Typeflag) (linkname : String) : Entry :=
  ⟨⟨name.toList, flag, 0, 0, 0, 0, none, none, linkname.toList, [], 0, 0⟩, []⟩

theorem rebase_consistent_file : Consistent [entryOf "a/" .dir "", entryOf "a/a" .reg ""] ['a'] ['b'] :=
  (rebase_consistent_iff ⟨by decide, by decide, by decide⟩ ['b']).1 (.inl (by decide))

/-- The link `b/y` leads to `a/x`, which the renamed archive does not have. -/
theorem rebase_dangling :
    OfResource ['a'] [entryOf "a/" .dir "", entryOf "a/x" .reg "", entryOf "a/y" .link "a/x"] ∧
      ¬ Consistent [entryOf "a/" .dir "", entryOf "a/x" .reg "", entryOf "a/y" .link "a/x"] ['a'] ['b'] := by
  refine ⟨⟨by decide, by decide, by decide⟩, fun h => ?_⟩
  exact absurd h.2 (by decide)

end DockerEngine.Archive
