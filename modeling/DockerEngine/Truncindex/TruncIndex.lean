import DockerEngine.Lib.Bytes

/-!
# Short ids

`TruncIndex` finds an id by any string that it alone begins with. It keeps the ids twice: in a set, which says
whether an id is there, and in a trie, which is asked for the ids with a given beginning. The trie is the
vendored package `patricia`; here it is what the index relies on (`Trie`): a store of keys that inserts and
deletes a key and says whether it did, and that visits the keys with a given beginning, each once, in an order of
its own, until the visitor returns an error.

**The law** (`get_exact`): after any calls of `Add` and `Delete`, `Get` answers by the ids that were added and
not deleted since, and a call that has failed has changed nothing.

**What it does not establish.** That the vendored trie is such a store.
-/

namespace DockerEngine.Truncindex

open Bytes List

/-! ## The trie -/

/-- A trie of keys. `subtree t p` lists the keys that start with `p` in the order in which they are visited. -/
structure Trie (T : Type) where
  empty : T
  insert : T → Bytes → T × Bool
  delete : T → Bytes → T × Bool
  subtree : T → Bytes → List Bytes
  has : T → Bytes → Prop
  has_empty : ∀ k, ¬ has empty k
  has_insert : ∀ t k x, has (insert t k).1 x ↔ x = k ∨ has t x
  inserted : ∀ t k, (insert t k).2 = true ↔ ¬ has t k
  has_delete : ∀ t k x, has (delete t k).1 x ↔ x ≠ k ∧ has t x
  deleted : ∀ t k, (delete t k).2 = true ↔ has t k
  mem_subtree : ∀ t p x, x ∈ subtree t p ↔ p <+: x ∧ has t x
  nodup_subtree : ∀ t p, (subtree t p).Nodup

/-- A visitor that keeps a variable and may return an error. -/
abbrev Visitor (S E : Type) : Type := S → Bytes → Except E S

/-- `VisitSubtree`: the visitor sees the keys until it returns an error. -/
def Trie.visitSubtree {T S E : Type} (tr : Trie T) (t : T) (p : Bytes) (visit : Visitor S E) (s : S) : Except E S :=
  (tr.subtree t p).foldlM visit s

/-! ## The index -/

/-- The errors of the index. -/
inductive Error where
  | emptyPrefix
  | ambiguousPrefix
  | illegalCharacter
  | alreadyExists (id : Bytes)
  | failedToInsert (id : Bytes)
  | noSuchID (id : Bytes)
  | notFound (s : Bytes)
  deriving DecidableEq

/-- The text of an error. -/
def Error.text : Error → Bytes
  | .emptyPrefix => Bytes.text "Prefix can't be empty"
  | .ambiguousPrefix => Bytes.text "Multiple IDs found with provided prefix"
  | .illegalCharacter => Bytes.text "illegal character: ' '"
  | .alreadyExists id => Bytes.text "id already exists: '" ++ id ++ Bytes.text "'"
  | .failedToInsert id => Bytes.text "failed to insert id: " ++ id
  | .noSuchID id => Bytes.text "no such id: '" ++ id ++ Bytes.text "'"
  | .notFound s => Bytes.text "no such id: " ++ s

/-- `TruncIndex`. -/
structure TruncIndex (T : Type) where
  trie : T
  ids : Finset Bytes

variable {T : Type} (tr : Trie T)

/-- `addID`, and `Add`, which calls it. -/
def TruncIndex.add (idx : TruncIndex T) (id : Bytes) : TruncIndex T × Option Error :=
  if ch ' ' ∈ id then (idx, some .illegalCharacter)
  else if id = [] then (idx, some .emptyPrefix)
  else if id ∈ idx.ids then (idx, some (.alreadyExists id))
  else
    let ids := insert id idx.ids
    let r := tr.insert idx.trie id
    if r.2 then (⟨r.1, ids⟩, none) else (⟨r.1, ids⟩, some (.failedToInsert id))

/-- `Delete`. -/
def TruncIndex.delete (idx : TruncIndex T) (id : Bytes) : TruncIndex T × Option Error :=
  if id ∉ idx.ids ∨ id = [] then (idx, some (.noSuchID id))
  else
    let ids := idx.ids.erase id
    let r := tr.delete idx.trie id
    if r.2 then (⟨r.1, ids⟩, none) else (⟨r.1, ids⟩, some (.noSuchID id))

/-- The visitor of `Get`. Its variable is the id it has found; with an error the variable is not read again. -/
def subTreeVisitFunc : Visitor Bytes Error := fun id key =>
  if id ≠ [] then .error .ambiguousPrefix else .ok key

/-- `Get`. -/
def TruncIndex.get (idx : TruncIndex T) (s : Bytes) : Except Error Bytes :=
  if s = [] then .error .emptyPrefix
  else
    match tr.visitSubtree idx.trie s subTreeVisitFunc [] with
    | .error e => .error e
    | .ok id => if id ≠ [] then .ok id else .error (.notFound s)

/-- A call that changes the index. -/
inductive Call where
  | add (id : Bytes)
  | delete (id : Bytes)
  deriving DecidableEq

/-- What a call does. -/
def TruncIndex.apply (idx : TruncIndex T) : Call → TruncIndex T × Option Error
  | .add id => idx.add tr id
  | .delete id => idx.delete tr id

/-- The calls of a history one after the other, each with its error. -/
def TruncIndex.run (idx : TruncIndex T) : List Call → TruncIndex T × List (Call × Option Error)
  | [] => (idx, [])
  | c :: cs =>
    let r := idx.apply tr c
    let rest := r.1.run cs
    (rest.1, (c, r.2) :: rest.2)

/-- An index with nothing in it. -/
def emptyIndex : TruncIndex T := ⟨tr.empty, ∅⟩

/-- `NewTruncIndex`: the errors of the first ids are passed over. -/
def newTruncIndex (ids : List Bytes) : TruncIndex T := ((emptyIndex tr).run tr (ids.map .add)).1

/-- What `NewTruncIndex` and then some calls have done. -/
def history (ids : List Bytes) (calls : List Call) : List (Call × Option Error) :=
  ((emptyIndex tr).run tr (ids.map .add ++ calls)).2

/-- **Stored**: added, and not deleted since. -/
def Stored (h : List (Call × Option Error)) (id : Bytes) : Prop :=
  ∃ pre post, h = pre ++ (.add id, none) :: post ∧ (Call.delete id, none) ∉ post

/-! ## The two stores are kept in step -/

/-- The set and the trie hold the same ids, and no id is empty. -/
structure InStep (idx : TruncIndex T) : Prop where
  same : ∀ id, tr.has idx.trie id ↔ id ∈ idx.ids
  nonempty : [] ∉ idx.ids

variable {tr} {idx : TruncIndex T}

theorem inStep_empty : InStep tr (emptyIndex tr) :=
  ⟨fun id => by simp [emptyIndex, tr.has_empty], Finset.notMem_empty _⟩

/-- What a call does to an index whose stores are in step: it fails and changes nothing, or it succeeds, the
stores stay in step, and the id is in or out. -/
theorem apply_cases (h : InStep tr idx) (c : Call) :
    (∃ e, idx.apply tr c = (idx, some e)) ∨
      ((idx.apply tr c).2 = none ∧ InStep tr (idx.apply tr c).1 ∧
        (∀ id, c = .add id → (idx.apply tr c).1.ids = insert id idx.ids) ∧
        ∀ id, c = .delete id → (idx.apply tr c).1.ids = idx.ids.erase id) := by
  cases c with
  | add id =>
    simp only [TruncIndex.apply, TruncIndex.add]
    split
    next => exact .inl ⟨_, rfl⟩
    split
    next => exact .inl ⟨_, rfl⟩
    next hid =>
    split
    next => exact .inl ⟨_, rfl⟩
    next hnew =>
    have hinserted : (tr.insert idx.trie id).2 := (tr.inserted _ _).mpr fun hhas => hnew ((h.same id).mp hhas)
    rw [if_pos hinserted]
    refine .inr ⟨rfl, ⟨fun x => ?_, ?_⟩, fun id' hc => ?_, fun id' hc => by cases hc⟩
    · rw [tr.has_insert, h.same, Finset.mem_insert]
    · rw [Finset.mem_insert, not_or]
      exact ⟨fun h0 => hid h0.symm, h.nonempty⟩
    · cases hc
      rfl
  | delete id =>
    simp only [TruncIndex.apply, TruncIndex.delete]
    split
    next => exact .inl ⟨_, rfl⟩
    next hid =>
    rw [not_or, not_not] at hid
    have hdeleted : (tr.delete idx.trie id).2 := (tr.deleted _ _).mpr ((h.same id).mpr hid.1)
    rw [if_pos hdeleted]
    refine .inr ⟨rfl, ⟨fun x => ?_, ?_⟩, fun id' hc => (by cases hc), fun id' hc => ?_⟩
    · rw [tr.has_delete, h.same, Finset.mem_erase]
    · rw [Finset.mem_erase]
      exact fun h0 => h.nonempty h0.2
    · cases hc
      rfl

theorem InStep.apply (h : InStep tr idx) (c : Call) : InStep tr (idx.apply tr c).1 := by
  obtain ⟨e, he⟩ | ⟨-, hstep, -⟩ := apply_cases h c
  · rw [he]
    exact h
  · exact hstep

/-- A call that fails changes nothing. -/
theorem apply_failed (h : InStep tr idx) {c : Call} {e : Error}
    (he : (idx.apply tr c).2 = some e) : (idx.apply tr c).1 = idx := by
  obtain ⟨e', he'⟩ | ⟨hnone, -⟩ := apply_cases h c
  · rw [he']
  · rw [hnone] at he
    cases he

/-! ## The ids of a history -/

theorem run_append (idx : TruncIndex T) (cs ds : List Call) :
    idx.run tr (cs ++ ds) =
      (((idx.run tr cs).1.run tr ds).1, (idx.run tr cs).2 ++ ((idx.run tr cs).1.run tr ds).2) := by
  induction cs generalizing idx with
  | nil => rfl
  | cons c cs ih =>
    rw [cons_append, TruncIndex.run, TruncIndex.run, ih]
    rfl

theorem InStep.run (h : InStep tr idx) (cs : List Call) : InStep tr (idx.run tr cs).1 := by
  induction cs generalizing idx with
  | nil => exact h
  | cons c cs ih => exact ih (h.apply c)

theorem stored_nil (id : Bytes) : ¬ Stored [] id := by
  rintro ⟨pre, post, h, -⟩
  simp at h

variable {id s : Bytes}

/-- What the last call of a history does to the ids that are stored. -/
theorem stored_snoc {h : List (Call × Option Error)} {e : Call × Option Error} :
    Stored (h ++ [e]) id ↔ e = (.add id, none) ∨ (Stored h id ∧ e ≠ (.delete id, none)) := by
  constructor
  · rintro ⟨pre, post, heq, hpost⟩
    rcases eq_nil_or_concat' post with rfl | ⟨post, e', rfl⟩
    · obtain ⟨-, hlast⟩ := append_inj' heq rfl
      exact .inl (singleton_inj.mp hlast)
    rw [← cons_append, ← append_assoc] at heq
    obtain ⟨hinit, hlast⟩ := append_inj' heq rfl
    rw [mem_append, not_or, mem_singleton] at hpost
    refine .inr ⟨⟨pre, post, hinit, hpost.1⟩, ?_⟩
    rw [singleton_inj.mp hlast]
    exact fun he => hpost.2 he.symm
  · rintro (rfl | ⟨⟨pre, post, rfl, hpost⟩, he⟩)
    · exact ⟨h, [], rfl, by simp⟩
    · refine ⟨pre, post ++ [e], by simp, ?_⟩
      rw [mem_append, mem_singleton, not_or]
      exact ⟨hpost, fun hd => he hd.symm⟩

/-- **The set holds the stored ids.** The induction is on the calls, from the last one. -/
theorem mem_ids_run (cs : List Call) (id : Bytes) :
    id ∈ ((emptyIndex tr).run tr cs).1.ids ↔ Stored ((emptyIndex tr).run tr cs).2 id := by
  induction cs using reverseRecOn generalizing id with
  | nil => exact iff_of_false (Finset.notMem_empty _) (stored_nil id)
  | append_singleton cs c ih =>
    have hstep : InStep tr ((emptyIndex tr).run tr cs).1 := inStep_empty.run cs
    rw [run_append]
    simp only [TruncIndex.run, stored_snoc]
    obtain ⟨e, he⟩ | ⟨hnone, -, hadd, hdelete⟩ := apply_cases hstep c
    · rw [he, ih]
      simp
    rw [hnone]
    cases c with
    | add x => simp [hadd x rfl, ih, eq_comm]
    | delete x =>
      rw [hdelete x rfl, Finset.mem_erase, ih]
      simp [and_comm, eq_comm]

/-! ## Looking up -/

/-- A visit that has found an id finds no other. -/
theorem foldlM_found (hid : id ≠ []) (keys : List Bytes) :
    keys.foldlM subTreeVisitFunc id = if keys = [] then .ok id else .error .ambiguousPrefix := by
  cases keys with
  | nil => rfl
  | cons k ks =>
    have hvisit : subTreeVisitFunc id k = .error .ambiguousPrefix := if_pos hid
    rw [foldlM_cons, hvisit, if_neg (cons_ne_nil _ _)]
    rfl

/-- What a whole visit comes to, by the keys it sees. -/
def visited : List Bytes → Except Error Bytes
  | [] => .ok []
  | [k] => .ok k
  | _ :: _ :: _ => .error .ambiguousPrefix

theorem foldlM_visit {keys : List Bytes} (hkeys : [] ∉ keys) : keys.foldlM subTreeVisitFunc [] = visited keys := by
  cases keys with
  | nil => rfl
  | cons k ks =>
    have hk : k ≠ [] := fun h0 => hkeys (by simp [h0])
    have hvisit : subTreeVisitFunc [] k = .ok k := rfl
    rw [foldlM_cons, hvisit]
    refine (foldlM_found hk ks).trans ?_
    cases ks <;> rfl

/-- The three answers to a string, by the ids that start with it. -/
theorem get_cases (h : InStep tr idx) (hs : s ≠ []) :
    (idx.get tr s = .error (.notFound s) ∧ ∀ id ∈ idx.ids, ¬ s <+: id) ∨
      (∃ id ∈ idx.ids, s <+: id ∧ idx.get tr s = .ok id ∧ ∀ id' ∈ idx.ids, s <+: id' → id' = id) ∨
      (idx.get tr s = .error .ambiguousPrefix ∧
        ∃ id₁ ∈ idx.ids, ∃ id₂ ∈ idx.ids, id₁ ≠ id₂ ∧ s <+: id₁ ∧ s <+: id₂) := by
  have hmem : ∀ id, id ∈ tr.subtree idx.trie s ↔ s <+: id ∧ id ∈ idx.ids := fun id => by
    rw [tr.mem_subtree, h.same]
  have hkeys : [] ∉ tr.subtree idx.trie s := fun h0 => h.nonempty ((hmem []).mp h0).2
  have hnodup := tr.nodup_subtree idx.trie s
  rw [TruncIndex.get, if_neg hs, Trie.visitSubtree, foldlM_visit hkeys]
  generalize tr.subtree idx.trie s = keys at hmem hkeys hnodup
  match keys with
  | [] => exact .inl ⟨rfl, fun id hid hpre => by simpa using (hmem id).mpr ⟨hpre, hid⟩⟩
  | [id] =>
    obtain ⟨hpre, hid⟩ := (hmem id).mp (by simp)
    have hne : id ≠ [] := fun h0 => hkeys (by simp [h0])
    exact .inr (.inl ⟨id, hid, hpre, if_pos hne, fun id' hid' hpre' =>
      by simpa using (hmem id').mpr ⟨hpre', hid'⟩⟩)
  | id₁ :: id₂ :: rest =>
    obtain ⟨hpre₁, hid₁⟩ := (hmem id₁).mp (by simp)
    obtain ⟨hpre₂, hid₂⟩ := (hmem id₂).mp (by simp)
    rw [nodup_cons] at hnodup
    refine .inr (.inr ⟨rfl, id₁, hid₁, id₂, hid₂, fun heq => hnodup.1 ?_, hpre₁, hpre₂⟩)
    simp [heq]

/-- What `Get` is to answer to a string when these are the ids. -/
structure Answers (stored : Bytes → Prop) (s : Bytes) (r : Except Error Bytes) : Prop where
  found : ∀ id, r = .ok id ↔ stored id ∧ s <+: id ∧ ∀ id', stored id' → s <+: id' → id' = id
  ambiguous : r = .error .ambiguousPrefix ↔ ∃ id₁ id₂, stored id₁ ∧ stored id₂ ∧ id₁ ≠ id₂ ∧ s <+: id₁ ∧ s <+: id₂
  missing : r = .error (.notFound s) ↔ ∀ id, stored id → ¬ s <+: id

theorem answers_get (h : InStep tr idx) (hs : s ≠ []) : Answers (· ∈ idx.ids) s (idx.get tr s) := by
  obtain ⟨hget, hnone⟩ | ⟨id, hid, hpre, hget, hunique⟩ | ⟨hget, id₁, hid₁, id₂, hid₂, hne, hpre₁, hpre₂⟩ :=
    get_cases h hs
  · rw [hget]
    refine ⟨fun id => iff_of_false (by simp) fun hid => hnone id hid.1 hid.2.1,
      iff_of_false (by simp) ?_, iff_of_true rfl hnone⟩
    rintro ⟨id, -, hid, -, -, hpre, -⟩
    exact hnone id hid hpre
  · rw [hget]
    refine ⟨fun id' => ⟨fun heq => ?_, fun hid' => ?_⟩, iff_of_false (by simp) ?_,
      iff_of_false (by simp) fun hnone => hnone id hid hpre⟩
    · cases heq
      exact ⟨hid, hpre, hunique⟩
    · rw [hunique id' hid'.1 hid'.2.1]
    · rintro ⟨id₁, id₂, hid₁, hid₂, hne, hpre₁, hpre₂⟩
      exact hne ((hunique id₁ hid₁ hpre₁).trans (hunique id₂ hid₂ hpre₂).symm)
  · rw [hget]
    refine ⟨fun id => iff_of_false (by simp) fun hid => hne ?_,
      iff_of_true rfl ⟨id₁, id₂, hid₁, hid₂, hne, hpre₁, hpre₂⟩,
      iff_of_false (by simp) fun hnone => hnone id₁ hid₁ hpre₁⟩
    exact (hid.2.2 id₁ hid₁ hpre₁).trans (hid.2.2 id₂ hid₂ hpre₂).symm

/-- **Short ids resolve exactly**, after any calls on a new index; and a call that fails leaves the index as it
is. -/
theorem get_exact (tr : Trie T) (ids : List Bytes) (calls : List Call) :
    (∀ s, s ≠ [] → Answers (Stored (history tr ids calls)) s (((newTruncIndex tr ids).run tr calls).1.get tr s)) ∧
    ∀ c e, (((newTruncIndex tr ids).run tr calls).1.apply tr c).2 = some e →
      (((newTruncIndex tr ids).run tr calls).1.apply tr c).1 = ((newTruncIndex tr ids).run tr calls).1 := by
  have hrun : ((newTruncIndex tr ids).run tr calls).1 =
      ((emptyIndex tr).run tr (ids.map .add ++ calls)).1 := by rw [run_append, newTruncIndex]
  have hstep : InStep tr ((newTruncIndex tr ids).run tr calls).1 := by
    rw [hrun]
    exact inStep_empty.run _
  have hstored : Stored (history tr ids calls) = (· ∈ ((newTruncIndex tr ids).run tr calls).1.ids) := by
    funext id
    rw [hrun, mem_ids_run, history]
  refine ⟨fun s hs => ?_, fun c e => apply_failed hstep⟩
  rw [hstored]
  exact answers_get hstep hs

/-! ## A list of keys as a trie -/

/-- The keys in a list. -/
def listTrie : Trie {l : List Bytes // l.Nodup} where
  empty := ⟨[], nodup_nil⟩
  insert l k := (⟨l.1.insert k, l.2.insert⟩, k ∉ l.1)
  delete l k := (⟨l.1.erase k, l.2.erase k⟩, k ∈ l.1)
  subtree l p := l.1.filter fun k => p.isPrefixOf k
  has l k := k ∈ l.1
  has_empty _ := not_mem_nil
  has_insert _ _ _ := mem_insert_iff
  inserted _ _ := by simp
  has_delete l _ _ := l.2.mem_erase_iff
  deleted _ _ := by simp
  mem_subtree _ _ _ := by rw [mem_filter, isPrefixOf_iff_prefix, and_comm]
  nodup_subtree l _ := l.2.filter _

/-- Of two ids one of which is the beginning of the other, the longer one is found by more than the shorter. -/
theorem get_exact_ab :
    (((newTruncIndex listTrie [text "a", text "ab"]).run listTrie []).1.get listTrie (text "ab") =
      .ok (text "ab")) := by
  have hanswers := (get_exact listTrie [text "a", text "ab"] []).1 (text "ab") (by decide)
  have hhistory : history listTrie [text "a", text "ab"] [] =
      [(.add (text "a"), none), (.add (text "ab"), none)] := by decide +kernel
  rw [hhistory] at hanswers
  refine (hanswers.found _).mpr ⟨⟨[(.add (text "a"), none)], [], rfl, by simp⟩, prefix_rfl, ?_⟩
  rintro id ⟨pre, post, heq, -⟩ hpre
  have hmem : (Call.add id, none) ∈ [(Call.add (text "a"), (none : Option Error)), (.add (text "ab"), none)] := by
    rw [heq]
    simp
  rcases mem_pair.mp hmem with hid | hid
  · cases hid
    exact absurd hpre (by decide)
  · cases hid
    rfl

end DockerEngine.Truncindex
