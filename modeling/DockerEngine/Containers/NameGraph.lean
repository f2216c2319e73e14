import DockerEngine.Lib.Filepath
import DockerEngine.Lib.GoMap

/-!
# The graph of container names: `pkg/graphdb`

Names of containers are edges of a graph: an edge leads from an entity, under a name, to another entity, and
the root entity is `0`. The container `/name` is the child `name` of the root; links of a container are its
children. A unique index keeps an entity from having two children of one name, which is part of the type.

Paths are followed from the root (`get`). For a path of one element the operations are stated on the child
relation alone (`get_simple`, `set_simple`, `delete_simple`), and the child relation is the set of edges
(`child_eq_some`). Operations fail for the reasons the code gives; errors of the database itself are not
modelled.
-/

namespace DockerEngine.Containers

open Filepath List

/-- A row of the edge table. -/
structure Edge where
  parent : Str
  name : Str
  entity : Str
  deriving DecidableEq, Repr

/-- `graphdb.Database`. -/
structure Database where
  edges : List Edge
  unique : (edges.map fun e => (e.parent, e.name)).Nodup

/-- The root entity. -/
def rootID : Str := ['0']

/-- The errors of the database. -/
inductive DbErr where
  /-- "Cannot find child for " + path. -/
  | noChild (path : Str)
  /-- "Cannot set self as child". -/
  | selfChild
  /-- The unique index refuses an edge. -/
  | notUnique
  /-- "Cannot delete root entity". -/
  | rootEntity
  deriving DecidableEq, Repr

/-- The texts of the errors. -/
def DbErr.text : DbErr → Str
  | .noChild path => "Cannot find child for ".toList ++ path
  | .selfChild => "Cannot set self as child".toList
  | .notUnique => "UNIQUE constraint failed: edge.parent_id, edge.name".toList
  | .rootEntity => "Cannot delete root entity".toList

/-- `IsNonUniqueNameError`, which reads the text. -/
def isNonUniqueNameError (e : DbErr) : Bool :=
  hasSuffix e.text "name are not unique".toList ||
    (decide ("UNIQUE constraint failed".toList <:+: e.text) && decide ("edge.name".toList <:+: e.text)) ||
    hasSuffix e.text "constraint failed".toList

/-- `splitPath`. -/
def splitPath (path : Str) : Str × Str :=
  let p := if path.head? = some '/' then path else '/' :: path
  ((p.reverse.dropWhile fun c => c ≠ '/').reverse.dropLast, (p.reverse.takeWhile fun c => c ≠ '/').reverse)

namespace Database

/-- `child`. -/
def child (db : Database) (parent name : Str) : Option Str :=
  (db.edges.find? fun e => e.parent = parent ∧ e.name = name).map Edge.entity

/-- The entity that a list of names leads to. -/
def descend (db : Database) : Str → List Str → Option Str
  | e, [] => some e
  | e, name :: rest =>
    match db.child e name with
    | none => none
    | some e' => db.descend e' rest

/-- `Get`. The part of a path before its first slash is not looked at. -/
def get (db : Database) (path : Str) : Option Str :=
  if path = ['/'] then some rootID
  else db.descend rootID (((path.splitOn '/').drop 1).filter fun p => p ≠ [])

/-- The database with a new edge. -/
def insert (db : Database) (e : Edge) (h : db.child e.parent e.name = none) : Database where
  edges := e :: db.edges
  unique := by
    rw [map_cons, nodup_cons]
    refine ⟨fun hmem => ?_, db.unique⟩
    obtain ⟨e', he', heq⟩ := mem_map.mp hmem
    rw [child, Option.map_eq_none_iff, find?_eq_none] at h
    have hnot := h e' he'
    simp only [Prod.mk.injEq] at heq
    simp [heq.1, heq.2] at hnot

/-- The database with the edges that pass a test. -/
def keep (db : Database) (p : Edge → Bool) : Database where
  edges := db.edges.filter p
  unique := db.unique.sublist (filter_sublist.map _)

/-- `Set`. -/
def set (db : Database) (path id : Str) : Except DbErr Database :=
  match db.get (splitPath path).1 with
  | none => .error (.noChild (splitPath path).1)
  | some parent =>
    if parent = id then .error .selfChild
    else if h : db.child parent (splitPath path).2 = none then
      .ok (db.insert ⟨parent, (splitPath path).2, id⟩ h)
    else .error .notUnique

/-- `Delete`. -/
def delete (db : Database) (path : Str) : Except DbErr Database :=
  if path = ['/'] then .error .rootEntity
  else
    match db.get (splitPath path).1 with
    | none => .error (.noChild (splitPath path).1)
    | some parent => .ok (db.keep fun e => ¬ (e.parent = parent ∧ e.name = (splitPath path).2))

/-- `Purge`. -/
def purge (db : Database) (id : Str) : Database := db.keep fun e => e.entity ≠ id ∧ e.parent ≠ id

/-! ## Edges and children -/

variable {db : Database} {parent name id n : Str}

theorem child_eq_some : db.child parent name = some id ↔ ⟨parent, name, id⟩ ∈ db.edges := by
  unfold child
  constructor
  · intro h
    obtain ⟨e, he, rfl⟩ := Option.map_eq_some_iff.mp h
    have hkey : e.parent = parent ∧ e.name = name := by simpa using find?_some he
    obtain ⟨rfl, rfl⟩ := hkey
    exact mem_of_find?_eq_some he
  · intro h
    rw [find?_of_key db.unique h (by simp)]
    rfl

theorem child_insert {e : Edge} {h : db.child e.parent e.name = none} :
    (db.insert e h).child parent name =
      if e.parent = parent ∧ e.name = name then some e.entity else db.child parent name := by
  show ((e :: db.edges).find? _).map _ = _
  rw [find?_cons]
  by_cases hkey : e.parent = parent ∧ e.name = name
  · simp [hkey]
  · simp only [hkey, decide_false, if_false]
    rfl

variable {p : Edge → Bool}

theorem child_keep :
    (db.keep p).child parent name = some id ↔ db.child parent name = some id ∧ p ⟨parent, name, id⟩ := by
  rw [child_eq_some, child_eq_some, keep, mem_filter]

theorem child_keep_none (h : ∀ e, p ⟨parent, name, e⟩ = false) :
    (db.keep p).child parent name = none := by
  rw [Option.eq_none_iff_forall_ne_some]
  intro e he
  have hp := (child_keep.mp he).2
  rw [h e] at hp
  cases hp

/-! ## Paths of one element -/

/-- A name without a slash, which the root may have as a child. -/
def Simple (n : Str) : Prop := n ≠ [] ∧ '/' ∉ n

theorem splitPath_simple (h : Simple n) : splitPath ('/' :: n) = ([], n) := by
  have hall : ∀ c ∈ n.reverse, decide (c ≠ '/') := by
    intro c hc
    rw [decide_eq_true_iff]
    rintro rfl
    exact h.2 (mem_reverse.mp hc)
  unfold splitPath
  simp only [head?_cons, if_true, reverse_cons]
  rw [dropWhile_append_of_pos hall, takeWhile_append_of_pos hall]
  simp

theorem get_nil : db.get [] = some rootID := rfl

theorem get_simple (h : Simple n) : db.get ('/' :: n) = db.child rootID n := by
  have hne : ('/' :: n) ≠ ['/'] := by simp [h.1]
  have hsplit := Words.splitOn_cons (not_mem_nil (a := '/')) n
  rw [nil_append, splitOn_eq_singleton h.2] at hsplit
  rw [get, if_neg hne, hsplit]
  simp only [drop_succ_cons, drop_zero]
  rw [filter_cons_of_pos (by simp [h.1]), filter_nil]
  simp only [descend]
  cases db.child rootID n <;> rfl

theorem set_simple (h : Simple n) : db.set ('/' :: n) id =
    if rootID = id then .error .selfChild
    else if hnone : db.child rootID n = none then .ok (db.insert ⟨rootID, n, id⟩ hnone)
    else .error .notUnique := by
  unfold set
  simp only [splitPath_simple h, get_nil]

theorem delete_simple (h : Simple n) :
    db.delete ('/' :: n) = .ok (db.keep fun e => ¬ (e.parent = rootID ∧ e.name = n)) := by
  have hne : ('/' :: n) ≠ ['/'] := by simp [h.1]
  unfold delete
  simp only [if_neg hne, splitPath_simple h, get_nil]

end Database

end DockerEngine.Containers
