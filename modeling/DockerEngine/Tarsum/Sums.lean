import DockerEngine.Lib.KeyedSort
import DockerEngine.Tarsum.Header

/-!
# The sum of an archive

`tarSum.Read` and `tarSum.Sum` of `pkg/tarsum/tarsum.go`, with the comparison of
`pkg/tarsum/fileinfosums.go`. Reading an archive hashes each header with the content behind it; the sums of the
files are then sorted and hashed together.

Files are compared by their sums, but two files of one name by their places in the archive. That is no order:
`sum_rearranged_iff` says for which archives the sum does depend on the files only, whatever the sort does as
long as it is insertion sort for few files, permutes, and sorts by strict weak orders.

The output of `Read`, which is the archive again, is left out, and with it the errors of writing it. The tar
reader gives the content of an entry in pieces, the last one with or without the end of the entry.
-/

namespace DockerEngine.Tarsum

open Bytes Sorting List Nat

/-- The order of Go strings. -/
scoped instance linearOrderUInt8 : LinearOrder UInt8 where
  le_refl := UInt8.le_refl
  le_trans _ _ _ := UInt8.le_trans
  le_antisymm _ _ := UInt8.le_antisymm
  le_total := UInt8.le_total
  lt_iff_le_not_ge a b := by
    simp only [UInt8.le_iff_toNat_le, UInt8.lt_iff_toNat_lt]
    omega
  toDecidableLE := inferInstance
  toDecidableLT := inferInstance
  toDecidableEq := inferInstance

/-! ## The sums of files -/

/-- `fileInfoSum`. -/
structure FileInfoSum where
  name : Bytes
  sum : Bytes
  pos : Nat
  deriving DecidableEq, Repr

/-- `GetDuplicatePaths`, with the names that were seen. -/
def duplicatePaths : List Bytes → List FileInfoSum → List FileInfoSum
  | _, [] => []
  | seen, f :: fis =>
    if f.name ∈ seen then f :: duplicatePaths seen fis else duplicatePaths (f.name :: seen) fis

/-- `GetDuplicatePaths`. -/
def getDuplicatePaths (fis : List FileInfoSum) : List FileInfoSum := duplicatePaths [] fis

/-- `bySum.Less`. -/
def bySumLess (dups : List FileInfoSum) (f g : FileInfoSum) : Bool :=
  if dups ≠ [] ∧ f.name = g.name then f.pos < g.pos else f.sum < g.sum

/-- `SortBySums`, with `sort.Sort` as `sort`. -/
def sortBySums (sort : (FileInfoSum → FileInfoSum → Bool) → List FileInfoSum → List FileInfoSum)
    (fis : List FileInfoSum) : List FileInfoSum :=
  sort (bySumLess (getDuplicatePaths fis)) fis

/-! ## Reading an archive -/

/-- A file of an archive. -/
structure Entry where
  header : Header
  content : Bytes

/-- `strings.TrimPrefix(s, "./")`. -/
def trimDot (s : Bytes) : Bytes := if (text "./").isPrefixOf s then s.drop 2 else s

/-- `strings.TrimSuffix(s, "/")`. -/
def trimSlash (s : Bytes) : Bytes := if (text "/").isSuffixOf s then s.dropLast else s

/-- The name under which a file is recorded. -/
def Entry.name (e : Entry) : Bytes := trimSlash (trimDot e.header.name)

/-- `THash`. -/
structure THash where
  name : Bytes
  hash : Bytes → Bytes

/-- The fields of `tarSum` that its sums depend on. `written` is what the hash was given since it was reset;
`current` and `entries` are the rest of the entry that the tar reader is in and of the archive. -/
structure State where
  written : Bytes
  sums : List FileInfoSum
  fileCounter : Nat
  currentFile : Bytes
  finished : Bool
  first : Bool
  current : Bytes
  entries : List Entry

/-- `initTarSum`. -/
def initTarSum (entries : List Entry) : State := ⟨[], [], 0, [], false, true, [], entries⟩

section

variable (t : THash) (v : Version)

/-- The end of a file: its sum is recorded, unless there was none before. -/
def closeFile (ts : State) : State :=
  if ts.first then { ts with first := false }
  else
    { ts with
      sums := ts.sums ++ [⟨ts.currentFile, hexEncode (t.hash ts.written), ts.fileCounter⟩]
      fileCounter := ts.fileCounter + 1
      written := [] }

/-- `ts.tarR.Next()`, and what is done with the header. -/
def nextFile (ts : State) : State :=
  match ts.entries with
  | [] => { ts with finished := true }
  | e :: entries =>
    { ts with
      currentFile := e.name
      written := ts.written ++ encodeHeader v e.header
      current := e.content
      entries := entries }

/-- `Read` with a buffer of `n` bytes. With `early` the tar reader tells the end of an entry with its last
bytes, otherwise with the next read. -/
def read (n : Nat) (early : Bool) (ts : State) : State :=
  if ts.finished then ts
  else
    let buf := ts.current.take n
    let ts' := { ts with written := ts.written ++ buf, current := ts.current.drop n }
    if ts.current = [] ∨ (early ∧ ts'.current = []) then nextFile v (closeFile t ts') else ts'

/-- A sequence of reads. -/
def readAll (reads : List (Nat × Bool)) (ts : State) : State := reads.foldl (fun ts r => read t v r.1 r.2 ts) ts

/-- The sum of a file. -/
def Entry.sum (e : Entry) : Bytes := fileSum t.hash v e.header e.content

/-- What is recorded for a file and its place. -/
def record (e : Entry × Nat) : FileInfoSum := ⟨e.1.name, e.1.sum t v, e.2⟩

/-- What is recorded for the files of an archive. -/
def fileInfoSums (entries : List Entry) : List FileInfoSum := entries.zipIdx.map (record t v)

end

/-- `Sum`. -/
def sum (sort : (FileInfoSum → FileInfoSum → Bool) → List FileInfoSum → List FileInfoSum) (t : THash)
    (v : Version) (extra : Option Bytes) (ts : State) : Bytes :=
  v.string ++ (text "+" ++ (t.name ++ (text ":" ++
    hexEncode (t.hash (extra.getD [] ++ ((sortBySums sort ts.sums).map FileInfoSum.sum).flatten)))))

/-! ## Whatever the sizes of the reads -/

variable {reads : List (Nat × Bool)}

section Reading

variable {t : THash} {v : Version} {all : List Entry} {ts : State}

/-- Where the reading of an archive is. -/
inductive Reading (t : THash) (v : Version) (all : List Entry) : State → Prop where
  | start : Reading t v all (initTarSum all)
  | inside (done : List Entry) (e : Entry) (rest : List Entry) (seen left : Bytes)
      (hall : all = done ++ e :: rest) (hcontent : e.content = seen ++ left) :
      Reading t v all ⟨encodeHeader v e.header ++ seen, fileInfoSums t v done, done.length, e.name, false, false,
        left, rest⟩
  | done (ts : State) (hfinished : ts.finished = true) (hsums : ts.sums = fileInfoSums t v all) :
      Reading t v all ts

/-- The end of a file, and the next one. -/
theorem nextFile_reading {done rest : List Entry} {e : Entry} (hall : all = done ++ e :: rest) :
    Reading t v all (nextFile v (closeFile t ⟨encodeHeader v e.header ++ e.content, fileInfoSums t v done,
      done.length, e.name, false, false, [], rest⟩)) := by
  have hsums : fileInfoSums t v done ++ [⟨e.name, hexEncode (t.hash (encodeHeader v e.header ++ e.content)),
      done.length⟩] = fileInfoSums t v (done ++ [e]) := by
    simp [fileInfoSums, zipIdx_append, record, Entry.sum, fileSum]
  unfold closeFile
  rw [if_neg (by simp)]
  cases rest with
  | nil => exact .done _ rfl (hsums.trans (by rw [hall]))
  | cons e' rest =>
    have hnext := @Reading.inside t v all (done ++ [e]) e' rest [] e'.content (by simp [hall]) rfl
    rw [← hsums, length_append, length_singleton, append_nil] at hnext
    exact hnext

theorem read_reading (h : Reading t v all ts) (n : Nat) (early : Bool) : Reading t v all (read t v n early ts) := by
  unfold read
  cases h with
  | start =>
    rw [if_neg (by simp [initTarSum])]
    simp only [initTarSum, take_nil, drop_nil, true_or, if_true]
    unfold closeFile
    rw [if_pos rfl]
    cases all with
    | nil => exact .done _ rfl rfl
    | cons e rest =>
      have hnext := Reading.inside (t := t) (v := v) [] e rest [] e.content rfl rfl
      rw [append_nil] at hnext
      exact hnext
  | inside done e rest seen left hall hcontent =>
    rw [if_neg (by simp)]
    have hread : e.content = (seen ++ left.take n) ++ left.drop n := by
      rw [append_assoc, take_append_drop, hcontent]
    simp only [append_assoc]
    split
    next hend =>
      have hdrop : left.drop n = [] := by
        obtain hleft | hearly := hend
        · rw [hleft, drop_nil]
        · exact hearly.2
      rw [hdrop, append_nil] at hread
      rw [hdrop, ← hread]
      exact nextFile_reading hall
    · exact .inside done e rest _ _ hall hread
  | done ts hfinished hsums =>
    rw [if_pos hfinished]
    exact .done ts hfinished hsums

/-- An archive that is read to its end has the sums of its files. -/
theorem readAll_sums (h : (readAll t v reads (initTarSum all)).finished) :
    (readAll t v reads (initTarSum all)).sums = fileInfoSums t v all := by
  have hreading : ∀ reads ts, Reading t v all ts → Reading t v all (readAll t v reads ts) := by
    intro reads
    induction reads with
    | nil => exact fun _ h => h
    | cons r reads ih => exact fun ts h => ih _ (read_reading h r.1 r.2)
  replace hreading := hreading reads _ .start
  generalize readAll t v reads (initTarSum all) = ts at h hreading
  cases hreading with
  | start => cases h
  | inside => cases h
  | done ts hfinished hsums => exact hsums

/-- What there is left to read, in steps. -/
def State.left (ts : State) : Nat :=
  if ts.finished then 0 else ts.current.length + (ts.entries.map fun e => e.content.length + 1).sum + 1

theorem nextFile_left (hfinished : ts.finished = false) :
    (nextFile v (closeFile t ts)).left ≤ (ts.entries.map fun e => e.content.length + 1).sum := by
  have hclose : (closeFile t ts).finished = false ∧ (closeFile t ts).entries = ts.entries := by
    unfold closeFile
    split <;> exact ⟨hfinished, rfl⟩
  rw [← hclose.2]
  generalize closeFile t ts = ts' at hclose
  unfold nextFile
  cases hentries : ts'.entries with
  | nil => simp [State.left]
  | cons e rest =>
    simp only [State.left, hclose.1, Bool.false_eq_true, if_false, map_cons, sum_cons]
    omega

/-- A read of at least one byte takes a step. -/
theorem read_left {n : Nat} (hn : 0 < n) (early : Bool) : (read t v n early ts).left ≤ ts.left - 1 := by
  unfold read
  by_cases hfinished : ts.finished
  · rw [if_pos hfinished]
    simp [State.left, hfinished]
  rw [if_neg hfinished]
  rw [Bool.not_eq_true] at hfinished
  have hleft : ts.left - 1 = ts.current.length + (ts.entries.map fun e => e.content.length + 1).sum := by
    rw [State.left, hfinished]
    rfl
  rw [hleft]
  dsimp only
  split
  · refine le_trans (nextFile_left ?_) (le_add_left _ _)
    exact hfinished
  next hend =>
    rw [not_or] at hend
    have hpos : 0 < ts.current.length := length_pos_iff.mpr hend.1
    simp only [State.left, hfinished, Bool.false_eq_true, if_false, length_drop]
    omega

/-- Reads of at least one byte come to the end of every archive. -/
theorem readAll_finishes (hreads : ∀ r ∈ reads, 0 < r.1)
    (h : ts.left ≤ reads.length) : (readAll t v reads ts).finished := by
  induction reads generalizing ts with
  | nil =>
    by_contra hfinished
    have hleft : ts.left = _ := if_neg (show ¬ ts.finished = true from hfinished)
    rw [hleft, length_nil] at h
    omega
  | cons r reads ih =>
    refine ih (fun r' hr' => hreads r' (mem_cons_of_mem r hr')) ?_
    have hstep := @read_left t v ts r.1 (hreads r mem_cons_self) r.2
    rw [length_cons] at h
    exact le_trans hstep (by omega)

theorem exists_readAll (t : THash) (v : Version) (all : List Entry) :
    ∃ reads, (readAll t v reads (initTarSum all)).finished := by
  refine ⟨replicate (initTarSum all).left (1, false), readAll_finishes (fun r hr => ?_) ?_⟩
  · rw [(mem_replicate.mp hr).2]
    exact one_pos
  · rw [length_replicate]

end Reading

/-! ## The comparison of files -/

section Comparison

variable {t : THash} {v : Version}

variable {fis : List FileInfoSum}

theorem duplicatePaths_eq_nil {seen : List Bytes} (h : duplicatePaths seen fis = []) :
    (∀ f ∈ fis, f.name ∉ seen) ∧ (fis.map FileInfoSum.name).Nodup := by
  induction fis generalizing seen with
  | nil => exact ⟨nofun, nodup_nil⟩
  | cons f fis ih =>
    rw [duplicatePaths] at h
    split at h
    · cases h
    next hseen =>
    obtain ⟨hnot, hnodup⟩ := ih h
    refine ⟨fun g hg => ?_, nodup_cons.mpr ⟨fun hmem => ?_, hnodup⟩⟩
    · obtain rfl | hg := mem_cons.mp hg
      · exact hseen
      · exact fun hmem => hnot g hg (mem_cons_of_mem _ hmem)
    · obtain ⟨g, hg, hname⟩ := mem_map.mp hmem
      exact hnot g hg (by simp [hname])

/-- The comparison without the list of duplicates: files of one name are compared by place. -/
def placeLess (f g : FileInfoSum) : Bool := if f.name = g.name then f.pos < g.pos else f.sum < g.sum

theorem bySumLess_eq {f g : FileInfoSum} (hf : f ∈ fis) (hg : g ∈ fis) :
    bySumLess (getDuplicatePaths fis) f g = placeLess f g := by
  unfold bySumLess placeLess
  by_cases hdups : getDuplicatePaths fis = []
  · rw [if_neg fun h => h.1 hdups]
    split
    next hname =>
      have heq : f = g := inj_on_of_nodup_map (duplicatePaths_eq_nil hdups).2 hf hg hname
      simp [heq]
    · rfl
  · simp [hdups]

theorem zipIdx_snd_pairwise (entries : List Entry) : entries.zipIdx.Pairwise fun x y => x.2 < y.2 := by
  have hrange : (entries.zipIdx.map Prod.snd).Pairwise (· < ·) := by
    rw [zipIdx_map_snd]
    exact pairwise_lt_range'
  exact pairwise_map.mp hrange

variable {entries : List Entry}

/-- A relation between entries and later ones, by their places. -/
theorem pairwise_iff_places {R : Entry → Entry → Prop} :
    entries.Pairwise R ↔ ∀ x ∈ entries.zipIdx, ∀ y ∈ entries.zipIdx, x.2 < y.2 → R x.1 y.1 := by
  have hfst : (entries.zipIdx.Pairwise fun x y => R x.1 y.1) ↔ entries.Pairwise R := by
    rw [← pairwise_map, zipIdx_map_fst]
  rw [← hfst]
  refine ⟨fun h => ?_, fun h => (zipIdx_snd_pairwise entries).imp_of_mem fun {x y} hx hy hlt => h x hx y hy hlt⟩
  have hlater : entries.zipIdx.Pairwise fun x y => x.2 < y.2 → R x.1 y.1 := h.imp fun {x y} hR (_ : x.2 < y.2) => hR
  have hall := List.Pairwise.forall_of_forall_of_flip (fun x _ hlt => absurd hlt (lt_irrefl _)) hlater
    ((zipIdx_snd_pairwise entries).imp fun {x y} hxy hyx => absurd hyx hxy.not_gt)
  exact fun x hx y hy => hall hx hy

variable {x y : Entry × Nat}

theorem eq_of_place (hx : x ∈ entries.zipIdx) (hy : y ∈ entries.zipIdx) (h : x.2 = y.2) : x = y := by
  have hnodup : (entries.zipIdx.map Prod.snd).Nodup :=
    pairwise_map.mpr ((zipIdx_snd_pairwise entries).imp fun hlt => hlt.ne)
  exact inj_on_of_nodup_map hnodup hx hy h

theorem exists_place {e : Entry} (he : e ∈ entries) : ∃ i, (e, i) ∈ entries.zipIdx := by
  rw [← zipIdx_map_fst 0 entries] at he
  obtain ⟨x, hx, rfl⟩ := mem_map.mp he
  exact ⟨x.2, hx⟩

theorem mem_of_place (hx : x ∈ entries.zipIdx) : x.1 ∈ entries := by
  rw [← zipIdx_map_fst 0 entries]
  exact mem_map_of_mem hx

/-- What insertion sort does with the sums of files. -/
theorem insertionSort_sums (entries : List Entry) :
    (insertionSort (bySumLess (getDuplicatePaths (fileInfoSums t v entries)))
      (fileInfoSums t v entries)).map FileInfoSum.sum =
        (keySort Entry.name (Entry.sum t v) entries).map (Entry.sum t v) := by
  set L : Entry × Nat → Entry × Nat → Bool := fun x y => placeLess (record t v x) (record t v y)
  have hfiles : insertionSort (bySumLess (getDuplicatePaths (fileInfoSums t v entries)))
      (fileInfoSums t v entries) = (insertionSort L entries.zipIdx).map (record t v) := by
    refine insertionSort_map fun done x rest hl y hy => bySumLess_eq ?_ ?_
    · exact mem_map_of_mem (by simp [hl])
    · exact mem_map_of_mem (by simp [hl, hy])
  have hentries : keySort Entry.name (Entry.sum t v) entries = (insertionSort L entries.zipIdx).map Prod.fst := by
    have hfst : entries.zipIdx.map Prod.fst = entries := zipIdx_map_fst ..
    rw [keySort]
    nth_rewrite 1 [← hfst]
    refine insertionSort_map fun done x rest hl y hy => ?_
    have hpos : y.2 < x.2 := by
      have hpair := zipIdx_snd_pairwise entries
      rw [hl, pairwise_append] at hpair
      exact hpair.2.2 y hy x mem_cons_self
    simp only [L, placeLess, record, keyLess]
    by_cases hname : x.1.name = y.1.name
    · have hnot : ¬ x.2 < y.2 := by omega
      simp [hname, hnot]
    · simp only [hname, ne_eq, not_false_eq_true, true_and, if_false]
      exact decide_eq_decide.mpr Iff.rfl
  rw [hfiles, hentries, map_map, map_map]
  rfl

theorem fileInfoSums_map (entries : List Entry) :
    ((fileInfoSums t v entries).map fun f => (f.name, f.sum)) = entries.map fun e => (e.name, e.sum t v) := by
  rw [fileInfoSums, map_map]
  nth_rewrite 2 [← zipIdx_map_fst 0 entries]
  rw [map_map]
  rfl

/-- What a sort by the comparison does: files of one name keep their order, others have theirs by sum. -/
theorem sorted_sums (hperm : fis.Perm (fileInfoSums t v entries))
    (hsorted : fis.Pairwise fun p q => placeLess q p = false) :
    Sorting.Ordered Prod.fst Prod.snd (fis.map fun f => (f.name, f.sum)) ∧
      SameKeys Prod.fst (fis.map fun f => (f.name, f.sum)) (entries.map fun e => (e.name, e.sum t v)) := by
  constructor
  · refine pairwise_map.mpr (hsorted.imp fun {p q} hless hne => ?_)
    rw [placeLess, if_neg (Ne.symm hne)] at hless
    exact not_lt.mp (by simpa using hless)
  · intro k
    have hpos : (fileInfoSums t v entries).Pairwise fun p q => p.pos < q.pos :=
      pairwise_map.mpr (zipIdx_snd_pairwise entries)
    have hinj : ((fileInfoSums t v entries).map FileInfoSum.pos).Nodup := pairwise_map.mpr (hpos.imp fun h => h.ne)
    have heq : (fis.filter fun f => f.name = k) = (fileInfoSums t v entries).filter fun f => f.name = k := by
      refine List.Perm.eq_of_pairwise (fun p q hp hq (hpq : p.pos ≤ q.pos) (hqp : q.pos ≤ p.pos) => ?_) ?_ ?_
        (hperm.filter _)
      · have hp' := hperm.mem_iff.mp (mem_filter.mp hp).1
        exact inj_on_of_nodup_map hinj hp' (mem_filter.mp hq).1 (le_antisymm hpq hqp)
      · refine (hsorted.filter _).imp_of_mem fun {p q} hp hq hless => ?_
        have hpk : p.name = k := by simpa using (mem_filter.mp hp).2
        have hqk : q.name = k := by simpa using (mem_filter.mp hq).2
        rw [placeLess, if_pos (hqk.trans hpk.symm)] at hless
        simpa using hless
      · exact (hpos.filter _).imp fun h => h.le
    rw [← fileInfoSums_map, filter_map, filter_map]
    exact congrArg _ heq

/-- No sum lies between the sums of two files of one name where they do not rise. -/
def Unmixed (t : THash) (v : Version) (entries : List Entry) : Prop :=
  entries.Pairwise fun a c => a.name = c.name →
    ∀ b ∈ entries, b.name ≠ a.name → ¬ (c.sum t v ≤ b.sum t v ∧ b.sum t v ≤ a.sum t v)

theorem placeLess_same (h : x.1.name = y.1.name) : placeLess (record t v x) (record t v y) = false ↔ y.2 ≤ x.2 := by
  rw [placeLess, record, record, if_pos h, decide_eq_false_iff_not, not_lt]

theorem placeLess_other (h : x.1.name ≠ y.1.name) :
    placeLess (record t v x) (record t v y) = false ↔ y.1.sum t v ≤ x.1.sum t v := by
  rw [placeLess, record, record, if_neg h, decide_eq_false_iff_not]
  exact not_lt

/-- The comparison is a strict weak order exactly if no sum is in between. -/
theorem placeLess_strictWeak_iff (entries : List Entry) :
    StrictWeakOn placeLess (fileInfoSums t v entries) ↔ Unmixed t v entries := by
  rw [Unmixed, pairwise_iff_places]
  constructor
  · rintro h x hx z hz hlt hname b hb hne ⟨hzb, hbx⟩
    obtain ⟨i, hi⟩ := exists_place hb
    have hless := h.negTrans _ (mem_map_of_mem hx) _ (mem_map_of_mem hi) _ (mem_map_of_mem hz)
      ((placeLess_other (y := (b, i)) (Ne.symm hne)).mpr hbx)
      ((placeLess_other (x := (b, i)) fun he => hne (he.trans hname.symm)).mpr hzb)
    have := (placeLess_same hname).mp hless
    omega
  · intro h
    refine ⟨fun f hf g hg hless => ?_, fun f hf g hg k hk hfg hgk => ?_⟩
    · obtain ⟨x, hx, rfl⟩ := mem_map.mp hf
      obtain ⟨y, hy, rfl⟩ := mem_map.mp hg
      by_contra hnot
      rw [← Bool.not_eq_false] at hless
      by_cases hname : x.1.name = y.1.name
      · rw [placeLess_same hname] at hless
        rw [placeLess_same hname.symm] at hnot
        omega
      · rw [placeLess_other hname] at hless
        rw [placeLess_other (Ne.symm hname)] at hnot
        exact (not_le.mp hless).not_gt (not_le.mp hnot)
    · obtain ⟨x, hx, rfl⟩ := mem_map.mp hf
      obtain ⟨y, hy, rfl⟩ := mem_map.mp hg
      obtain ⟨z, hz, rfl⟩ := mem_map.mp hk
      by_cases hxz : x.1.name = z.1.name
      · rw [placeLess_same hxz]
        by_cases hxy : x.1.name = y.1.name
        · have h₁ := (placeLess_same hxy).mp hfg
          have h₂ := (placeLess_same (hxy.symm.trans hxz)).mp hgk
          omega
        · have h₁ := (placeLess_other hxy).mp hfg
          have h₂ := (placeLess_other fun he => hxy (hxz.trans he.symm)).mp hgk
          by_contra hlt
          exact h x hx z hz (by omega) hxz y.1 (mem_of_place hy) (Ne.symm hxy) ⟨h₂, h₁⟩
      · rw [placeLess_other hxz]
        by_contra hle
        have hlt : x.1.sum t v < z.1.sum t v := not_le.mp hle
        by_cases hxy : x.1.name = y.1.name
        · have h₁ := (placeLess_same hxy).mp hfg
          have h₂ := (placeLess_other fun he => hxz (hxy.trans he)).mp hgk
          by_cases hpos : y.2 = x.2
          · rw [eq_of_place hy hx hpos] at h₂
            exact hle h₂
          · exact h y hy x hx (by omega) hxy.symm z.1 (mem_of_place hz) (fun he => hxz (hxy.trans he.symm))
              ⟨hlt.le, h₂⟩
        · have h₁ := (placeLess_other hxy).mp hfg
          by_cases hyz : y.1.name = z.1.name
          · have h₂ := (placeLess_same hyz).mp hgk
            by_cases hpos : z.2 = y.2
            · rw [eq_of_place hz hy hpos] at hle
              exact hle h₁
            · exact h z hz y hy (by omega) hyz.symm x.1 (mem_of_place hx) (hxz)
                ⟨h₁, hlt.le⟩
          · exact hle (((placeLess_other hyz).mp hgk).trans h₁)

end Comparison

/-! ## Archives with the same files -/

/-- The same files, those of one name in the same order. -/
structure Rearranged (entries entries' : List Entry) : Prop where
  perm : entries'.Perm entries
  order : SameKeys Entry.name entries' entries

/-- No order of the files matters: there are few and no sum lies between falling sums of another name, or
there are many and no sum lies between sums of another name that do not rise, or all sums are the same. -/
structure Independent (t : THash) (v : Version) (entries : List Entry) : Prop where
  few : entries.length < 12 → Steady Entry.name (Entry.sum t v) entries
  many : 12 ≤ entries.length → Unmixed t v entries ∨ ∀ a ∈ entries, ∀ b ∈ entries, a.sum t v = b.sum t v

section Rearrangement

variable {t : THash} {v : Version} {entries entries' : List Entry}
  {sort : (FileInfoSum → FileInfoSum → Bool) → List FileInfoSum → List FileInfoSum}

theorem Rearranged.pairwise (h : Rearranged entries entries') {P : Entry → Entry → Entry → Prop}
    (hp : entries.Pairwise fun a c => a.name = c.name → ∀ b ∈ entries, P a c b) :
    entries'.Pairwise fun a c => a.name = c.name → ∀ b ∈ entries', P a c b :=
  (h.order.symm.pairwise hp).imp fun hac hname b hb => hac hname b (h.perm.mem_iff.mp hb)

/-- The sums in the order in which they are hashed. -/
def hashed (sort : (FileInfoSum → FileInfoSum → Bool) → List FileInfoSum → List FileInfoSum) (t : THash)
    (v : Version) (entries : List Entry) : List Bytes :=
  (sortBySums sort (fileInfoSums t v entries)).map FileInfoSum.sum

theorem fileInfoSums_length (t : THash) (v : Version) (entries : List Entry) :
    (fileInfoSums t v entries).length = entries.length := by
  rw [fileInfoSums, length_map, length_zipIdx]

theorem hashed_perm (hsort : Sorts sort) : (hashed sort t v entries).Perm (entries.map (Entry.sum t v)) := by
  have hsums : (fileInfoSums t v entries).map FileInfoSum.sum = entries.map (Entry.sum t v) := by
    have h := congrArg (map Prod.snd) (@fileInfoSums_map t v entries)
    rw [map_map, map_map] at h
    exact h
  rw [← hsums]
  exact (hsort.perm _ _).map _

theorem hashed_few (hsort : Sorts sort) (h : entries.length < 12) :
    hashed sort t v entries = (keySort Entry.name (Entry.sum t v) entries).map (Entry.sum t v) := by
  rw [hashed, sortBySums, hsort.few _ _ (by rwa [fileInfoSums_length]), insertionSort_sums]

theorem hashed_unmixed (hsort : Sorts sort) (h : Rearranged entries entries') (hu : Unmixed t v entries) :
    hashed sort t v entries' = hashed sort t v entries := by
  -- both are sorted, as the comparison is a strict weak order
  have hsorted : ∀ {l}, Unmixed t v l → (sortBySums sort (fileInfoSums t v l)).Pairwise fun p q =>
      placeLess q p = false := by
    intro l hl
    have hweak : StrictWeakOn (bySumLess (getDuplicatePaths (fileInfoSums t v l))) (fileInfoSums t v l) :=
      ((placeLess_strictWeak_iff l).mpr hl).congr fun f hf g hg => bySumLess_eq hf hg
    have hmem : ∀ {f}, f ∈ sortBySums sort (fileInfoSums t v l) → f ∈ fileInfoSums t v l :=
      (hsort.perm _ _).mem_iff.mp
    refine (hsort.sorted _ _ hweak).imp_of_mem fun {p q} hp hq hless => ?_
    rwa [← bySumLess_eq (hmem hq) (hmem hp)]
  obtain ⟨hord, hkeys⟩ := sorted_sums (hsort.perm _ _) (hsorted hu)
  obtain ⟨hord', hkeys'⟩ := sorted_sums (hsort.perm _ _) (hsorted (h.pairwise hu))
  have horder : SameKeys Prod.fst (entries'.map fun e => (e.name, e.sum t v))
      (entries.map fun e => (e.name, e.sum t v)) := by
    intro k
    rw [filter_map, filter_map]
    exact congrArg _ (h.order k)
  have heq := ordered_unique hord' hord (hkeys'.trans (horder.trans hkeys.symm))
  rw [map_map, map_map] at heq
  exact heq

/-- The condition is enough. -/
theorem Independent.hashed_eq (hi : Independent t v entries) (hsort : Sorts sort)
    (h : Rearranged entries entries') : hashed sort t v entries' = hashed sort t v entries := by
  by_cases hlen : entries.length < 12
  · have hs := hi.few hlen
    rw [hashed_few hsort hlen, hashed_few hsort (by rwa [h.perm.length_eq])]
    exact ordered_unique (ordered_keySort (h.pairwise hs)) (ordered_keySort hs)
      ((sameKeys_keySort entries').trans (h.order.trans (sameKeys_keySort entries).symm))
  · obtain hu | hsame := hi.many (not_lt.mp hlen)
    · exact hashed_unmixed hsort h hu
    -- all sums are the same, so that any order of them is
    have hperm := (hashed_perm hsort : (hashed sort t v entries').Perm _).trans
      ((h.perm.map _).trans (hashed_perm hsort).symm)
    have hconst : ∀ {l : List Bytes}, l.Perm (entries.map (Entry.sum t v)) → l.Pairwise (· = ·) := by
      intro l hl
      refine pairwise_of_forall_mem_list fun a ha b hb => ?_
      obtain ⟨e, he, rfl⟩ := mem_map.mp (hl.mem_iff.mp ha)
      obtain ⟨e', he', rfl⟩ := mem_map.mp (hl.mem_iff.mp hb)
      exact hsame e he e' he'
    exact hperm.eq_of_pairwise (fun a b _ _ (hab : a = b) _ => hab)
      (hconst ((hashed_perm hsort).trans (h.perm.map _))) (hconst (hashed_perm hsort))

/-- A list with two different values has an order in which its values are not the given ones. -/
theorem exists_perm_map_ne {f : FileInfoSum → Bytes} {l : List FileInfoSum} {p r : FileInfoSum} (hp : p ∈ l)
    (hr : r ∈ l) (hne : f p ≠ f r) (q : List Bytes) : ∃ l' : List FileInfoSum, l'.Perm l ∧ l'.map f ≠ q := by
  have hr' : r ∈ l.erase p := (mem_erase_of_ne fun he => hne (by rw [he])).mpr hr
  have h₁ : (p :: r :: (l.erase p).erase r).Perm l :=
    ((perm_cons_erase hr').symm.cons p).trans (perm_cons_erase hp).symm
  have h₂ : (r :: p :: (l.erase p).erase r).Perm l := (List.Perm.swap p r _).trans h₁
  by_cases heq : (p :: r :: (l.erase p).erase r).map f = q
  · refine ⟨_, h₂, fun heq' => hne ?_⟩
    rw [← heq'] at heq
    exact (cons.inj heq).1
  · exact ⟨_, h₁, heq⟩

/-- An archive with two names has another arrangement. -/
theorem exists_rearranged_ne {a b : Entry} (ha : a ∈ entries) (hb : b ∈ entries) (hne : a.name ≠ b.name) :
    ∃ entries', Rearranged entries entries' ∧ fileInfoSums t v entries' ≠ fileInfoSums t v entries := by
  have hchain : ¬ entries.IsChain fun x y => x.name = y.name := by
    intro h
    have : IsTrans Entry fun x y => x.name = y.name := ⟨fun _ _ _ => Eq.trans⟩
    have : Std.Symm fun x y : Entry => x.name = y.name := ⟨fun _ _ => Eq.symm⟩
    have hname : ∀ x ∈ entries, x.name = x.name := fun _ _ => rfl
    exact hne (Pairwise.forall_of_forall hname h.pairwise ha hb)
  rw [isChain_iff_forall_rel_of_append_cons_cons] at hchain
  push Not at hchain
  -- two neighbours of different names change their places
  obtain ⟨x, y, p, q, rfl, hxy⟩ := hchain
  refine ⟨p ++ y :: x :: q, ⟨(List.Perm.swap x y q).append_left p, fun k => ?_⟩, fun heq => hxy ?_⟩
  · by_cases hx : x.name = k
    · have hy : y.name ≠ k := fun hy => hxy (hx.trans hy.symm)
      simp [hx, hy]
    · simp [filter_cons, hx]
  · have hmap := congrArg (map fun f => (f.name, f.sum)) heq
    rw [fileInfoSums_map, fileInfoSums_map, map_append, map_append, append_cancel_left_eq] at hmap
    exact congrArg Prod.fst (cons.inj hmap).1.symm

/-- The condition is needed. -/
theorem independent_of_hashed_eq
    (hall : ∀ sort, Sorts sort → ∀ entries', Rearranged entries entries' →
      hashed sort t v entries' = hashed sort t v entries) : Independent t v entries := by
  constructor
  · intro hlen
    by_contra hnot
    obtain ⟨entries', hkeys, hne⟩ := exists_keySort_ne hnot
    refine hne ?_
    rw [← hashed_few insertionSort_sorts hlen, ← hashed_few insertionSort_sorts (by rwa [hkeys.perm.length_eq])]
    exact hall _ insertionSort_sorts entries' ⟨hkeys.perm, hkeys⟩
  · intro hlen
    by_contra hnot
    rw [not_or] at hnot
    obtain ⟨hmixed, hsums⟩ := hnot
    -- the names of the sums that are in the way
    have htwo : ∃ a ∈ entries, ∃ b ∈ entries, a.name ≠ b.name := by
      by_contra hone
      push Not at hone
      refine hmixed (pairwise_of_forall_mem_list fun a ha c _ _ b hb hne => ?_)
      exact absurd (hone b hb a ha) hne
    obtain ⟨a, ha, b, hb, hab⟩ := htwo
    obtain ⟨entries', hre, hfiles⟩ := @exists_rearranged_ne t v entries a b ha hb hab
    push Not at hsums
    obtain ⟨p, hp, r, hr, hpr⟩ := hsums
    obtain ⟨i, hi⟩ := exists_place hp
    obtain ⟨j, hj⟩ := exists_place hr
    obtain ⟨fis, hperm, hfis⟩ := exists_perm_map_ne (f := FileInfoSum.sum)
      (mem_map_of_mem (f := record t v) hi) (mem_map_of_mem (f := record t v) hj) hpr
      (hashed insertionSort t v entries')
    -- a sort that does to these files what it may do, and insertion sort elsewhere
    classical
    set sort : (FileInfoSum → FileInfoSum → Bool) → List FileInfoSum → List FileInfoSum := fun less l =>
      if l = fileInfoSums t v entries ∧ ¬ StrictWeakOn less l then fis else insertionSort less l with hsort
    have hsorts : Sorts sort := by
      refine ⟨fun less l hl => if_neg ?_, fun less l => ?_, fun less l hweak => ?_⟩
      · rintro ⟨rfl, -⟩
        rw [fileInfoSums_length] at hl
        omega
      · rw [hsort]
        dsimp only
        split
        next h => exact h.1 ▸ hperm
        · exact insertionSort_perm less l
      · have heq : sort less l = insertionSort less l := if_neg fun h => h.2 hweak
        rw [heq]
        exact insertionSort_sorted hweak
    have hthis : hashed sort t v entries = fis.map FileInfoSum.sum := by
      rw [hashed, sortBySums, hsort]
      dsimp only
      rw [if_pos]
      refine ⟨rfl, fun hweak => hmixed ((placeLess_strictWeak_iff entries).mp ?_)⟩
      exact hweak.congr fun f hf g hg => (bySumLess_eq hf hg).symm
    have hother : hashed sort t v entries' = hashed insertionSort t v entries' := by
      rw [hashed, sortBySums, hsort]
      dsimp only
      rw [if_neg fun h => hfiles h.1]
      rfl
    exact hfis (hthis.symm.trans ((hall sort hsorts entries' hre).symm.trans hother))

end Rearrangement

/-! ## The checksum -/

theorem sum_readAll {sort : (FileInfoSum → FileInfoSum → Bool) → List FileInfoSum → List FileInfoSum}
    {t : THash} {v : Version} {entries : List Entry} (extra : Option Bytes)
    (h : (readAll t v reads (initTarSum entries)).finished) :
    sum sort t v extra (readAll t v reads (initTarSum entries)) = v.string ++ (text "+" ++ (t.name ++ (text ":" ++
      hexEncode (t.hash (extra.getD [] ++ (hashed sort t v entries).flatten))))) := by
  rw [sum, readAll_sums h, hashed]

/-- With a hash of fixed width that has no collision on the sums of these files, the checksum of an archive
is the same for every arrangement, every sizes of the reads and every sort exactly if `Independent` holds. -/
theorem sum_rearranged_iff (t : THash) (v : Version) (extra : Option Bytes) (entries : List Entry)
    (hwidth : ∀ x y, (t.hash x).length = (t.hash y).length)
    (hcollision : ∀ l l' : List Bytes, l.Perm (entries.map (Entry.sum t v)) →
      l'.Perm (entries.map (Entry.sum t v)) →
      t.hash (extra.getD [] ++ l.flatten) = t.hash (extra.getD [] ++ l'.flatten) → l.flatten = l'.flatten) :
    (∀ sort, Sorts sort → ∀ entries', Rearranged entries entries' → ∀ reads reads',
      (readAll t v reads (initTarSum entries)).finished = true →
      (readAll t v reads' (initTarSum entries')).finished = true →
        sum sort t v extra (readAll t v reads' (initTarSum entries')) =
          sum sort t v extra (readAll t v reads (initTarSum entries))) ↔ Independent t v entries := by
  constructor
  · intro hall
    refine independent_of_hashed_eq fun sort hsort entries' hre => ?_
    obtain ⟨reads, hreads⟩ := exists_readAll t v entries
    obtain ⟨reads', hreads'⟩ := exists_readAll t v entries'
    have heq := hall sort hsort entries' hre reads reads' hreads hreads'
    rw [sum_readAll extra hreads, sum_readAll extra hreads'] at heq
    simp only [append_cancel_left_eq] at heq
    have hp : (hashed sort t v entries).Perm (entries.map (Entry.sum t v)) := hashed_perm hsort
    have hp' : (hashed sort t v entries').Perm (entries.map (Entry.sum t v)) :=
      (hashed_perm hsort).trans (hre.perm.map _)
    have hsame : ∀ {l : List Bytes}, l.Perm (entries.map (Entry.sum t v)) →
        ∀ x ∈ l, x.length = (hexEncode (t.hash [])).length := by
      intro l hl x hx
      obtain ⟨e, -, rfl⟩ := mem_map.mp (hl.mem_iff.mp hx)
      rw [Entry.sum, fileSum, length_hexEncode, length_hexEncode, hwidth]
    refine eq_iff_flatten_eq.mpr ⟨hcollision _ _ hp' hp (hexEncode_inj heq), ?_⟩
    rw [map_congr_left (hsame hp'), map_congr_left (hsame hp), map_const', map_const', (hp'.trans hp.symm).length_eq]
  · intro hi sort hsort entries' hre reads reads' hreads hreads'
    rw [sum_readAll extra hreads, sum_readAll extra hreads', hi.hashed_eq hsort hre]

/-! ### Files in a circle -/

/-- A hash for runs: the last byte. -/
def lastByte : THash := ⟨text "last", fun x => [x.getLastD 0]⟩

/-- A file of one byte. -/
def file (name : Bytes) (b : UInt8) : Entry := ⟨{ owned [] [] with name := name, size := 1 }, [b]⟩

/-- Enough reads. -/
def someReads : List (Nat × Bool) := replicate 8 (512, false)

theorem sum_rearranged_two :
    sum insertionSort lastByte .version1 none
        (readAll lastByte .version1 someReads (initTarSum [file (text "y") 2, file (text "x") 1])) =
      sum insertionSort lastByte .version1 none
        (readAll lastByte .version1 someReads (initTarSum [file (text "x") 1, file (text "y") 2])) := by
  have hsums : [file (text "x") 1, file (text "y") 2].map (Entry.sum lastByte .version1) =
      [text "01", text "02"] := by decide +kernel
  have hname : (file (text "x") 1).name ≠ (file (text "y") 2).name := by decide
  refine (sum_rearranged_iff lastByte .version1 none [file (text "x") 1, file (text "y") 2] (fun _ _ => rfl)
    ?_).mpr ⟨fun _ => ?_, fun hlen => absurd hlen (by decide)⟩ insertionSort insertionSort_sorts _ ?_ someReads
    someReads (by decide +kernel) (by decide +kernel)
  · rw [hsums]
    intro l l' hl hl'
    rw [← mem_permutations'] at hl hl'
    have hcases : ∀ m ∈ [text "01", text "02"].permutations',
        m = [text "01", text "02"] ∨ m = [text "02", text "01"] := by decide +kernel
    obtain rfl | rfl := hcases l hl <;> obtain rfl | rfl := hcases l' hl' <;> decide +kernel
  · refine pairwise_pair.mpr fun h => absurd h hname
  · refine ⟨List.Perm.swap _ _ _, fun k => ?_⟩
    by_cases hx : (file (text "x") 1).name = k
    · subst hx
      simp [hname.symm]
    · simp [filter_cons, hx]

/-- The first and the last file have one name, and each file comes before the next in a circle. -/
theorem sum_order_dependent :
    Rearranged [file (text "x") 5, file (text "y") 3, file (text "x") 1]
      [file (text "x") 5, file (text "x") 1, file (text "y") 3] ∧
    (∀ sort, Sorts sort → sum sort lastByte .version1 none (readAll lastByte .version1 someReads
        (initTarSum [file (text "x") 5, file (text "x") 1, file (text "y") 3])) ≠
      sum sort lastByte .version1 none (readAll lastByte .version1 someReads
        (initTarSum [file (text "x") 5, file (text "y") 3, file (text "x") 1]))) := by
  have hname : (file (text "x") 1).name ≠ (file (text "y") 3).name := by decide
  refine ⟨⟨(List.Perm.swap _ _ _).cons _, fun k => ?_⟩, fun sort hsort => ?_⟩
  · by_cases hx : (file (text "y") 3).name = k
    · subst hx
      simp [filter_cons, hname]
    · simp [filter_cons, hx]
  · rw [sum_readAll none (by decide +kernel), sum_readAll none (by decide +kernel), hashed_few hsort (by decide),
      hashed_few hsort (by decide)]
    decide +kernel

end DockerEngine.Tarsum
