import DockerEngine.Lib.Bytes
import DockerEngine.Lib.GoMap

/-!
# Overriding an environment

`ReplaceOrAppendEnvValues` puts overrides into a list of defaults. It looks for the place of a name in a table
that it has made from the defaults: an override of a default replaces the entry or blanks it, another assignment is
appended, and at the end the blank entries are deleted from the list while it is scanned.

**The law** (`replaceOrAppendEnvValues_iff`): the result has one entry for each name and defines what the
overrides, taken as assignments from left to right, make of the defaults, exactly if no name that is not among the
defaults is named again after it was assigned. The table is not told of what is appended: such a name gets a
second entry, or is not removed.
-/

namespace DockerEngine.Utils

open Bytes List

/-! ## Entries -/

/-- `strings.SplitN(e, "=", 2)[0]`. -/
def nameOf (e : Bytes) : Bytes :=
  match cut (ch '=') e with
  | some p => p.1
  | none => e

/-- The value that an entry gives to its name, if it is an assignment. -/
def valueOf (e : Bytes) : Option Bytes := (cut (ch '=') e).map Prod.snd

variable {n : Bytes}

theorem nameOf_assignment (h : ch '=' ∉ n) (v : Bytes) : nameOf (n ++ ch '=' :: v) = n := by
  rw [nameOf, cut_append h]

theorem valueOf_assignment (h : ch '=' ∉ n) (v : Bytes) : valueOf (n ++ ch '=' :: v) = some v := by
  rw [valueOf, cut_append h]
  rfl

variable {e : Bytes}

theorem nameOf_plain (h : ch '=' ∉ e) : nameOf e = e := by
  rw [nameOf, cut_eq_none h]

theorem valueOf_plain (h : ch '=' ∉ e) : valueOf e = none := by
  rw [valueOf, cut_eq_none h]
  rfl

theorem equals_not_mem_nameOf (e : Bytes) : ch '=' ∉ nameOf e := by
  obtain ⟨h, -⟩ | ⟨n, v, rfl, h, -⟩ := cut_cases (ch '=') e
  · rwa [nameOf_plain h]
  · rwa [nameOf_assignment h]

theorem assignment_iff {v : Bytes} (hn : ch '=' ∉ n) : e = n ++ ch '=' :: v ↔ nameOf e = n ∧ valueOf e = some v := by
  constructor
  · rintro rfl
    exact ⟨nameOf_assignment hn v, valueOf_assignment hn v⟩
  rintro ⟨rfl, hv⟩
  obtain ⟨h, -⟩ | ⟨n, w, rfl, h, -⟩ := cut_cases (ch '=') e
  · rw [valueOf_plain h] at hv
    cases hv
  · rw [valueOf_assignment h] at hv
    cases hv
    rw [nameOf_assignment h]

theorem valueOf_isSome : (valueOf e).isSome ↔ ch '=' ∈ e := by
  obtain ⟨h, -⟩ | ⟨n, v, rfl, h, -⟩ := cut_cases (ch '=') e
  · simp [valueOf_plain h, h]
  · simp [valueOf_assignment h]

/-! ## The code -/

/-- The table of the places of the names, from place `i` on. -/
def cachePlaces : Nat → List Bytes → GoMap Bytes Nat → GoMap Bytes Nat
  | _, [], cache => cache
  | i, e :: es, cache => cachePlaces (i + 1) es (cache.set (nameOf e) i)

/-- One override. -/
def override (cache : GoMap Bytes Nat) (env : List Bytes) (value : Bytes) : List Bytes :=
  if ch '=' ∉ value then
    match cache.get value with
    | some i => env.set i []
    | none => env
  else
    match cache.get (nameOf value) with
    | some i => env.set i value
    | none => env ++ [value]

/-- The loop that deletes the blank entries, at place `i`. -/
def removeUnset (env : List Bytes) (i : Nat) : List Bytes :=
  if h : i < env.length then
    if env[i] = [] then removeUnset (env.eraseIdx i) i else removeUnset env (i + 1)
  else env
termination_by env.length - i
decreasing_by
  · rw [length_eraseIdx_of_lt h]
    omega
  · omega

section

variable (defaults : List Bytes) (o : Bytes) (overrides : List Bytes) (env : List Bytes)

/-- `ReplaceOrAppendEnvValues`. -/
def replaceOrAppendEnvValues : List Bytes :=
  removeUnset (overrides.foldl (override (cachePlaces 0 defaults .empty)) defaults) 0

/-! ## What it is for -/

/-- An environment is a partial function from names to values. -/
abbrev Environment : Type := Bytes → Option Bytes

/-- The function that a list of entries defines; an entry that is no assignment defines nothing. -/
def defined : Environment := fun x => (env.find? fun e => nameOf e = x).bind valueOf

/-- An override as an assignment, or a removal. -/
def assign (f : Environment) (o : Bytes) : Environment := Function.update f (nameOf o) (valueOf o)

/-- The entries of a list are the graph of a function. -/
def Defines (f : Environment) : Prop := ∀ x v, ch '=' ∉ x → (x ++ ch '=' :: v ∈ env ↔ f x = some v)

/-- The overrides behave like assignments to the defaults. -/
def BehavesLikeAssignments : Prop :=
  ((replaceOrAppendEnvValues defaults overrides).map nameOf).Nodup ∧
    Defines (replaceOrAppendEnvValues defaults overrides) (overrides.foldl assign (defined defaults))

/-- No name that the defaults do not have is named again after it was assigned. -/
def NamedOnce : Prop :=
  overrides.Pairwise fun o o' => ch '=' ∈ o → nameOf o ∉ defaults.map nameOf → nameOf o' ≠ nameOf o

instance (defaults overrides : List Bytes) : Decidable (NamedOnce defaults overrides) :=
  inferInstanceAs (Decidable (List.Pairwise _ _))

/-! ## The blank entries -/

/-- The scan deletes exactly the blank entries. -/
theorem removeUnset_eq (i : Nat) : removeUnset env i = env.take i ++ (env.drop i).filter (· ≠ []) := by
  fun_induction removeUnset env i with
  | case1 env i h hblank ih =>
    rw [ih, eraseIdx_eq_take_drop_succ, take_append_of_le_length (by simp; omega),
      take_take, Nat.min_self, drop_append_of_le_length (by simp; omega),
      drop_eq_getElem_cons h, hblank]
    simp
  | case2 env i h hfull ih =>
    rw [ih, drop_eq_getElem_cons h, filter_cons_of_pos (by simpa using hfull),
      take_succ_eq_append_getElem h, append_assoc, singleton_append]
  | case3 env i h =>
    rw [drop_eq_nil_of_le (by omega), take_of_length_le (by omega)]
    simp

/-! ## The table -/

/-- The table has the place of each name. -/
theorem get_cachePlaces {es : List Bytes} (hnames : (es.map nameOf).Nodup) (i : Nat)
    (cache : GoMap Bytes Nat) (x : Bytes) :
    (cachePlaces i es cache).get x =
      if x ∈ es.map nameOf then some (i + (es.map nameOf).idxOf x) else cache.get x := by
  induction es generalizing i cache with
  | nil => simp [cachePlaces]
  | cons e es ih =>
    rw [map_cons, nodup_cons] at hnames
    rw [cachePlaces, ih hnames.2, map_cons]
    by_cases hx : x = nameOf e
    · subst hx
      rw [if_neg hnames.1, if_pos (by simp), GoMap.get_set_self, idxOf_cons_self, Nat.add_zero]
    rw [GoMap.get_set_ne _ hx, idxOf_cons_ne _ (Ne.symm hx)]
    by_cases hmem : x ∈ es.map nameOf
    · rw [if_pos hmem, if_pos (by simp [hmem])]
      congr 1
      omega
    · rw [if_neg hmem, if_neg (by simp [hmem, hx])]

/-- What an override writes at the place of its name. -/
def mark : Bytes := if ch '=' ∈ o then o else []

theorem valueOf_mark : valueOf (mark o) = valueOf o := by
  rw [mark]
  split
  next => rfl
  next h => rw [valueOf_plain h, valueOf_plain not_mem_nil]

theorem nameOf_mark : mark o = [] ∨ nameOf (mark o) = nameOf o := by
  rw [mark]
  split
  next => exact .inr rfl
  next => exact .inl rfl

/-- An override is appended if it assigns a name that the defaults do not have. -/
def Fresh : Prop := ch '=' ∈ o ∧ nameOf o ∉ defaults.map nameOf

end

instance (defaults : List Bytes) (o : Bytes) : Decidable (Fresh defaults o) := inferInstanceAs (Decidable (_ ∧ _))

variable {defaults : List Bytes} (overrides : List Bytes)

theorem set_idxOf (hnames : (defaults.map nameOf).Nodup) (u : Bytes → Bytes) (x v : Bytes) :
    (defaults.map u).set ((defaults.map nameOf).idxOf x) v =
      defaults.map fun d => if nameOf d = x then v else u d := by
  induction defaults with
  | nil => rfl
  | cons d ds ih =>
    rw [map_cons, nodup_cons] at hnames
    by_cases hd : nameOf d = x
    · have hrest : ds.map (fun d => if nameOf d = x then v else u d) = ds.map u := by
        refine map_congr_left fun e he => if_neg fun hx => hnames.1 ?_
        rw [hd, ← hx]
        exact mem_map_of_mem he
      simp only [map_cons, hd, idxOf_cons_self, set_cons_zero, if_true, hrest]
    · simp only [map_cons, idxOf_cons_ne _ hd, set_cons_succ, ih hnames.2, if_neg hd]

/-- **One override**: it writes at the place of its name, or it is appended. -/
theorem override_eq (hnames : (defaults.map nameOf).Nodup) (u : Bytes → Bytes) (appended : List Bytes) (o : Bytes) :
    override (cachePlaces 0 defaults .empty) (defaults.map u ++ appended) o =
      (defaults.map fun d => if nameOf d = nameOf o then mark o else u d) ++
        (appended ++ if Fresh defaults o then [o] else []) := by
  have hget : (cachePlaces 0 defaults .empty).get (nameOf o) =
      if nameOf o ∈ defaults.map nameOf then some ((defaults.map nameOf).idxOf (nameOf o)) else none := by
    rw [get_cachePlaces hnames, Nat.zero_add]
    rfl
  -- either branch looks for the name of the override and writes its mark
  have hcase : override (cachePlaces 0 defaults .empty) (defaults.map u ++ appended) o =
      match (cachePlaces 0 defaults .empty).get (nameOf o) with
      | some i => (defaults.map u ++ appended).set i (mark o)
      | none => (defaults.map u ++ appended) ++ if ch '=' ∈ o then [o] else [] := by
    rw [override, mark]
    by_cases ho : ch '=' ∈ o
    · simp [ho]
    · simp [ho, nameOf_plain ho]
  rw [hcase, hget]
  by_cases hmem : nameOf o ∈ defaults.map nameOf
  · have hlt : (defaults.map nameOf).idxOf (nameOf o) < (defaults.map u).length := by
      simpa using idxOf_lt_length_of_mem hmem
    have hold : ¬ Fresh defaults o := fun h => h.2 hmem
    simp only [if_pos hmem, if_neg hold, append_nil, set_append_left _ _ hlt, set_idxOf hnames]
  · have hsame : (defaults.map fun d => if nameOf d = nameOf o then mark o else u d) = defaults.map u := by
      refine map_congr_left fun d hd => if_neg fun hx => hmem ?_
      rw [← hx]
      exact mem_map_of_mem hd
    have hfresh : Fresh defaults o ↔ ch '=' ∈ o := ⟨fun h => h.1, fun h => ⟨h, hmem⟩⟩
    simp only [if_neg hmem, hsame, hfresh, append_assoc]

/-- What the overrides leave at the place of `d`, where `cur` was. -/
def written (overrides : List Bytes) (d cur : Bytes) : Bytes :=
  overrides.foldl (fun cur o => if nameOf d = nameOf o then mark o else cur) cur

theorem foldl_override (hnames : (defaults.map nameOf).Nodup) (overrides : List Bytes)
    (u : Bytes → Bytes) (appended : List Bytes) :
    overrides.foldl (override (cachePlaces 0 defaults .empty)) (defaults.map u ++ appended) =
      (defaults.map fun d => written overrides d (u d)) ++
        (appended ++ overrides.filter fun o => Fresh defaults o) := by
  induction overrides generalizing u appended with
  | nil => simp [written]
  | cons o os ih =>
    rw [foldl_cons, override_eq hnames, ih, filter_cons]
    by_cases ho : Fresh defaults o
    · simp [ho, written]
    · simp [ho, written]

/-- **The result**: the places of the defaults that are not blank, and the assignments of other names. -/
theorem result_eq (hnames : (defaults.map nameOf).Nodup) (overrides : List Bytes) :
    replaceOrAppendEnvValues defaults overrides =
      (defaults.map fun d => written overrides d d).filter (· ≠ []) ++
        overrides.filter fun o => Fresh defaults o := by
  have hfold := foldl_override hnames overrides id []
  rw [map_id, append_nil, nil_append] at hfold
  rw [replaceOrAppendEnvValues, hfold, removeUnset_eq, take_zero, nil_append, drop_zero,
    filter_append, filter_filter]
  congr 1
  refine filter_congr fun o _ => ?_
  by_cases ho : Fresh defaults o
  · simp [ho, ne_nil_of_mem ho.1]
  · simp [ho]

/-! ## Assignments from left to right -/

/-- What the overrides make of the value of one name. -/
def assigned (overrides : List Bytes) (x : Bytes) (cur : Option Bytes) : Option Bytes :=
  overrides.foldl (fun cur o => if x = nameOf o then valueOf o else cur) cur

theorem foldl_assign (f : Environment) (x : Bytes) : overrides.foldl assign f x = assigned overrides x (f x) := by
  induction overrides generalizing f with
  | nil => rfl
  | cons o os ih => rw [foldl_cons, ih, assign, Function.update_apply, assigned, assigned, foldl_cons]

theorem valueOf_written (d cur : Bytes) :
    valueOf (written overrides d cur) = assigned overrides (nameOf d) (valueOf cur) := by
  induction overrides generalizing cur with
  | nil => rfl
  | cons o os ih =>
    rw [written, assigned, foldl_cons, foldl_cons]
    refine (ih _).trans ?_
    rw [assigned, apply_ite valueOf, valueOf_mark]

theorem nameOf_written {d cur : Bytes} (hcur : cur = [] ∨ nameOf cur = nameOf d) :
    written overrides d cur = [] ∨ nameOf (written overrides d cur) = nameOf d := by
  induction overrides generalizing cur with
  | nil => exact hcur
  | cons o os ih =>
    rw [written, foldl_cons]
    apply ih
    split
    next ho =>
      rw [ho]
      exact nameOf_mark o
    next => exact hcur

variable {x : Bytes}

theorem defined_of_not_mem (h : x ∉ defaults.map nameOf) : defined defaults x = none := by
  have hfind : defaults.find? (fun e => nameOf e = x) = none := by
    rw [find?_eq_none]
    intro e he hx
    exact h (mem_map.mpr ⟨e, he, by simpa using hx⟩)
  rw [defined, hfind]
  rfl

variable {os : List Bytes}

/-- Removals only leave nothing. -/
theorem assigned_removed (hplain : ∀ o ∈ os, nameOf o = x → ch '=' ∉ o)
    {cur : Option Bytes} (hcur : cur = none ∨ ∃ o ∈ os, nameOf o = x) : assigned os x cur = none := by
  induction os generalizing cur with
  | nil => simpa [assigned] using hcur
  | cons o os ih =>
    rw [assigned, foldl_cons]
    apply ih (forall_mem_cons.mp hplain).2
    by_cases ho : x = nameOf o
    · rw [if_pos ho, valueOf_plain (hplain o (by simp) ho.symm)]
      exact .inl rfl
    rw [if_neg ho]
    refine hcur.imp_right ?_
    rintro ⟨o', ho', hx⟩
    rcases mem_cons.mp ho' with rfl | ho'
    · exact absurd hx.symm ho
    · exact ⟨o', ho', hx⟩

theorem assigned_untouched (h : ∀ o ∈ os, nameOf o ≠ x) (cur : Option Bytes) : assigned os x cur = cur := by
  induction os generalizing cur with
  | nil => rfl
  | cons o os ih =>
    rw [assigned, foldl_cons, if_neg fun hx => h o (by simp) hx.symm]
    exact ih (forall_mem_cons.mp h).2 cur

/-- No override names `x` after one that assigns it. -/
def LastAssigned (x : Bytes) (os : List Bytes) : Prop :=
  os.Pairwise fun o o' => ch '=' ∈ o → nameOf o = x → nameOf o' ≠ x

/-- A name that is not named again after its assignment has the value of that assignment. -/
theorem assigned_last (hx : ch '=' ∉ x) (h : LastAssigned x os) (v : Bytes) :
    assigned os x none = some v ↔ x ++ ch '=' :: v ∈ os := by
  induction os with
  | nil => simp [assigned]
  | cons o os ih =>
    obtain ⟨hhead, htail⟩ := pairwise_cons.mp h
    rw [assigned, foldl_cons, mem_cons, eq_comm (b := o), assignment_iff hx]
    by_cases ho : nameOf o = x
    · rw [if_pos ho.symm]
      by_cases heq : ch '=' ∈ o
      · have huntouched : ∀ o' ∈ os, nameOf o' ≠ x := fun o' ho' => hhead o' ho' heq ho
        have hnot : x ++ ch '=' :: v ∉ os := fun hmem => huntouched _ hmem (nameOf_assignment hx v)
        rw [← assigned, assigned_untouched huntouched]
        simp [ho, hnot]
      · rw [valueOf_plain heq, ← assigned, ih htail]
        simp
    · rw [if_neg (Ne.symm ho), ← assigned, ih htail]
      simp [ho]

/-- The converse, for one name: two entries of it, or one that a removal should have taken, are seen. -/
theorem lastAssigned_of_graph
    (hone : (os.filter fun o => ch '=' ∈ o ∧ nameOf o = x).Pairwise fun o o' => nameOf o ≠ nameOf o')
    (hgraph : ∀ o ∈ os, ch '=' ∈ o → nameOf o = x → assigned os x none = valueOf o) : LastAssigned x os := by
  induction os with
  | nil => exact List.Pairwise.nil
  | cons o os ih =>
    by_cases ho : ch '=' ∈ o ∧ nameOf o = x
    · rw [filter_cons_of_pos (by simpa using ho)] at hone
      have hplain : ∀ o' ∈ os, nameOf o' = x → ch '=' ∉ o' := by
        intro o' ho' hx' heq'
        have hmem : o' ∈ os.filter fun o => ch '=' ∈ o ∧ nameOf o = x := by simp [ho', hx', heq']
        exact (pairwise_cons.mp hone).1 o' hmem (ho.2.trans hx'.symm)
      have huntouched : ∀ o' ∈ os, nameOf o' ≠ x := by
        intro o' ho' hx'
        have hvalue := hgraph o (by simp) ho.1 ho.2
        rw [assigned, foldl_cons, ← assigned, assigned_removed hplain (.inr ⟨o', ho', hx'⟩)] at hvalue
        have hsome := valueOf_isSome.mpr ho.1
        simp [← hvalue] at hsome
      refine pairwise_cons.mpr ⟨fun o' ho' _ _ => huntouched o' ho', ?_⟩
      exact pairwise_of_forall_mem_list fun a _ b hb _ _ => huntouched b hb
    · refine pairwise_cons.mpr ⟨fun o' _ heq hx => absurd ⟨heq, hx⟩ ho, ih ?_ ?_⟩
      · rwa [filter_cons_of_neg (by simpa using ho)] at hone
      intro o' ho' heq' hx'
      have hvalue := hgraph o' (by simp [ho']) heq' hx'
      rw [assigned, foldl_cons, ← assigned] at hvalue
      by_cases hx : nameOf o = x
      · rwa [if_pos hx.symm, valueOf_plain fun heq => ho ⟨heq, hx⟩] at hvalue
      · rwa [if_neg (Ne.symm hx)] at hvalue

/-! ## The result as a function -/

section Result

variable {defaults overrides : List Bytes} (hnames : (defaults.map nameOf).Nodup)

include hnames

/-- Where an assignment in the result comes from. -/
theorem mem_result {x : Bytes} (hx : ch '=' ∉ x) (v : Bytes) :
    x ++ ch '=' :: v ∈ replaceOrAppendEnvValues defaults overrides ↔
      (∃ d ∈ defaults, nameOf d = x ∧ assigned overrides x (valueOf d) = some v) ∨
        (x ++ ch '=' :: v ∈ overrides ∧ x ∉ defaults.map nameOf) := by
  have hname : ∀ d, valueOf (written overrides d d) = some v → nameOf (written overrides d d) = nameOf d := by
    intro d hvalue
    refine (nameOf_written overrides (.inr rfl : d = [] ∨ nameOf d = nameOf d)).resolve_left fun hnil => ?_
    rw [hnil, valueOf_plain not_mem_nil] at hvalue
    cases hvalue
  have hentry : ∀ d, written overrides d d = x ++ ch '=' :: v ↔
      nameOf d = x ∧ assigned overrides x (valueOf d) = some v := by
    intro d
    rw [assignment_iff hx, and_congr_left fun hvalue => by rw [hname d hvalue], valueOf_written]
    exact and_congr_right fun hd => by rw [hd]
  have hfresh : Fresh defaults (x ++ ch '=' :: v) ↔ x ∉ defaults.map nameOf := by
    simp [Fresh, nameOf_assignment hx]
  rw [result_eq hnames, mem_append, mem_filter, mem_filter, mem_map]
  simp [hentry, hfresh]

/-- The entry of a name of the defaults is what the overrides make of it. -/
theorem graph_default {d : Bytes} (hd : d ∈ defaults) (v : Bytes) :
    nameOf d ++ ch '=' :: v ∈ replaceOrAppendEnvValues defaults overrides ↔
      assigned overrides (nameOf d) (defined defaults (nameOf d)) = some v := by
  rw [mem_result hnames (equals_not_mem_nameOf d), defined, find?_of_key hnames hd (by simp)]
  constructor
  · rintro (⟨e, he, hname, hvalue⟩ | ⟨-, hnot⟩)
    · rwa [inj_on_of_nodup_map hnames he hd hname] at hvalue
    · exact absurd (mem_map_of_mem hd) hnot
  · intro hvalue
    exact .inl ⟨d, hd, rfl, hvalue⟩

/-- The entries of another name are all its assignments. -/
theorem graph_fresh {x : Bytes} (hx : ch '=' ∉ x) (hnew : x ∉ defaults.map nameOf) (v : Bytes) :
    x ++ ch '=' :: v ∈ replaceOrAppendEnvValues defaults overrides ↔ x ++ ch '=' :: v ∈ overrides := by
  rw [mem_result hnames hx]
  constructor
  · rintro (⟨d, hd, rfl, -⟩ | ⟨hmem, -⟩)
    · exact absurd (mem_map_of_mem hd) hnew
    · exact hmem
  · intro hmem
    exact .inr ⟨hmem, hnew⟩

omit hnames in
/-- The places that are not blank keep the names of the defaults. -/
theorem names_written (overrides defaults : List Bytes) :
    (((defaults.map fun d => written overrides d d).filter (· ≠ [])).map nameOf).Sublist (defaults.map nameOf) := by
  induction defaults with
  | nil => exact List.Sublist.refl _
  | cons d ds ih =>
    rw [map_cons, map_cons]
    by_cases hnil : written overrides d d = []
    · rw [filter_cons_of_neg (by simpa using hnil)]
      exact ih.cons _
    · have hsame := (nameOf_written overrides (.inr rfl : d = [] ∨ nameOf d = nameOf d)).resolve_left hnil
      rw [filter_cons_of_pos (by simpa using hnil), map_cons, hsame]
      exact ih.cons_cons _

/-- The names of the result are distinct if those of the appended assignments are. -/
theorem nodup_result :
    ((replaceOrAppendEnvValues defaults overrides).map nameOf).Nodup ↔
      ((overrides.filter fun o => Fresh defaults o).map nameOf).Nodup := by
  rw [result_eq hnames, map_append, nodup_append]
  refine ⟨fun h => h.2.1, fun h => ⟨(names_written overrides defaults).nodup hnames, h, ?_⟩⟩
  rintro x hold _ hnew rfl
  obtain ⟨o, ho, rfl⟩ := mem_map.mp hnew
  have hfresh : Fresh defaults o := by simpa using (mem_filter.mp ho).2
  exact hfresh.2 ((names_written overrides defaults).subset hold)

/-- **Overrides behave like assignments** exactly if no name beside those of the defaults is named again after it
was assigned. -/
theorem replaceOrAppendEnvValues_iff : BehavesLikeAssignments defaults overrides ↔ NamedOnce defaults overrides := by
  have hgraphs : Defines (replaceOrAppendEnvValues defaults overrides)
      (overrides.foldl assign (defined defaults)) ↔
      ∀ x v, ch '=' ∉ x → x ∉ defaults.map nameOf →
        (x ++ ch '=' :: v ∈ overrides ↔ assigned overrides x none = some v) := by
    constructor
    · intro h x v hx hnew
      rw [← graph_fresh hnames hx hnew, h x v hx, foldl_assign, defined_of_not_mem hnew]
    intro h x v hx
    rw [foldl_assign]
    by_cases hold : x ∈ defaults.map nameOf
    · obtain ⟨d, hd, rfl⟩ := mem_map.mp hold
      exact graph_default hnames hd v
    · rw [graph_fresh hnames hx hold, h x v hx hold, defined_of_not_mem hold]
  rw [BehavesLikeAssignments, nodup_result hnames, hgraphs]
  constructor
  · rintro ⟨hnodup, hgraph⟩
    rw [NamedOnce, pairwise_iff_forall_sublist]
    intro o o' hsub heq hnew
    have hx := equals_not_mem_nameOf o
    refine (pairwise_iff_forall_sublist.mp (lastAssigned_of_graph ?_ fun p hp heq' hname => ?_)) hsub heq rfl
    · -- the assignments of one name are among the appended ones
      have hpair : (overrides.filter fun o => Fresh defaults o).Pairwise fun a b => nameOf a ≠ nameOf b :=
        pairwise_map.mp hnodup
      refine hpair.sublist ?_
      refine monotone_filter_right overrides fun p hp => ?_
      simp only [decide_eq_true_eq] at hp ⊢
      exact ⟨hp.1, hp.2 ▸ hnew⟩
    · obtain ⟨v, hv⟩ := Option.isSome_iff_exists.mp (valueOf_isSome.mpr heq')
      have hp' : p = nameOf o ++ ch '=' :: v := (assignment_iff hx).mpr ⟨hname, hv⟩
      rw [hv]
      exact (hgraph (nameOf o) v hx hnew).mp (hp' ▸ hp)
  · intro hnamed
    constructor
    · rw [List.Nodup, pairwise_map]
      have hsub := List.Pairwise.filter (fun o => decide (Fresh defaults o)) hnamed
      refine hsub.imp_of_mem fun {a b} ha _ hab => ?_
      have hfresh : Fresh defaults a := by simpa using (mem_filter.mp ha).2
      exact (hab hfresh.1 hfresh.2).symm
    · intro x v hx hnew
      refine (assigned_last hx ?_ v).symm
      refine hnamed.imp fun {a b} hab heq hname => ?_
      rw [← hname]
      exact hab heq (hname ▸ hnew)

end Result

/-- An override of a default and a removal, and one other assignment. -/
theorem replaceOrAppendEnvValues_path :
    BehavesLikeAssignments [text "PATH=/bin", text "HOME=/"] [text "PATH=/sbin", text "HOME", text "A=1"] :=
  (replaceOrAppendEnvValues_iff (by decide)).mpr (by decide)

/-- A name that the defaults do not have gets two entries. -/
theorem replaceOrAppendEnvValues_twice :
    replaceOrAppendEnvValues [] [text "A=1", text "A=2"] = [text "A=1", text "A=2"] ∧
      ¬ BehavesLikeAssignments [] [text "A=1", text "A=2"] := by
  have hresult : replaceOrAppendEnvValues [] [text "A=1", text "A=2"] = [text "A=1", text "A=2"] := by
    have hnames : (([] : List Bytes).map nameOf).Nodup := nodup_nil
    rw [result_eq hnames]
    decide
  refine ⟨hresult, fun h => ?_⟩
  have hnodup := h.1
  rw [hresult] at hnodup
  exact absurd hnodup (by decide)

end DockerEngine.Utils
