import Mathlib

/-!
# Trees with named children

A finite tree whose nodes carry a payload and whose edges carry names: the shape of a directory
tree, and of any record of one. Children stand in a list, so that a walk over them has an order;
where two of them share a name the first one counts, and `All` states that none do.

A tree is observed through `look`: the payload at the end of a path of names, if there is a node
there. Two trees with the same `look` differ in the order of their children alone.
-/

namespace DockerEngine

open List

/-- A node with a payload and named children. -/
inductive NameTree (N A : Type) where
  | node (val : A) (kids : List (N × NameTree N A))

namespace NameTree

variable {N A : Type}

/-- The payload of the root. -/
def val : NameTree N A → A
  | .node a _ => a

/-- The children of the root. -/
def kids : NameTree N A → List (N × NameTree N A)
  | .node _ ks => ks

mutual
variable {motive : NameTree N A → Prop}

/-- Induction over a tree, with the hypothesis for every child. -/
theorem induct
    (node : ∀ a ks, (∀ k ∈ ks, motive k.2) → motive (.node a ks)) : ∀ t, motive t
  | .node a ks => node a ks (inductKids node ks)
theorem inductKids (node : ∀ a ks, (∀ k ∈ ks, motive k.2) → motive (.node a ks)) :
    ∀ (ks : List (N × NameTree N A)), ∀ k ∈ ks, motive k.2
  | [], k, h => absurd h (by simp)
  | (n, t) :: ks, k, h => by
    rcases mem_cons.mp h with rfl | h
    · exact induct node t
    · exact inductKids node ks k h
end

/-- A property of every node: of its payload and its list of children. -/
inductive All (P : A → List (N × NameTree N A) → Prop) : NameTree N A → Prop
  | node {a : A} {ks : List (N × NameTree N A)} (here : P a ks)
      (kids : ∀ k ∈ ks, All P k.2) : All P (.node a ks)

variable {P : A → List (N × NameTree N A) → Prop} {t : NameTree N A}

theorem All.here (h : All P t) : P t.val t.kids := by
  cases h with
  | node here _ => exact here

theorem All.kids (h : All P t) : ∀ k ∈ t.kids, All P k.2 := by
  cases h with
  | node _ kids => exact kids

variable {Q : A → List (N × NameTree N A) → Prop}

theorem All.mono (imp : ∀ a ks, P a ks → Q a ks) (h : All P t) : All Q t := by
  induction h with
  | node here _ ih => exact .node (imp _ _ here) ih

theorem All.and (h : All P t) (h' : All Q t) : All (fun a ks => P a ks ∧ Q a ks) t := by
  induction h with
  | node here _ ih => exact .node ⟨here, h'.here⟩ fun k hk => ih k hk (h'.kids k hk)

/-! ## Observation -/

variable [BEq N]

section

variable (t : NameTree N A)

/-- The child of the root under a name. -/
def child (n : N) : Option (NameTree N A) := t.kids.lookup n

/-- The subtree at the end of a path of names. -/
def get : NameTree N A → List N → Option (NameTree N A)
  | t, [] => some t
  | t, n :: p => (t.child n).bind (fun c => c.get p)

/-- The payload at the end of a path of names. -/
def look (p : List N) : Option A := (t.get p).map val

theorem get_nil : t.get [] = some t := by
  cases t; rfl

theorem get_cons (n : N) (p : List N) : t.get (n :: p) = (t.child n).bind (fun c => c.get p) := by
  cases t; rfl

theorem get_append (p q : List N) : t.get (p ++ q) = (t.get p).bind (fun s => s.get q) := by
  induction p generalizing t with
  | nil => rw [nil_append, get_nil]; rfl
  | cons n p ih =>
    rw [cons_append, get_cons, get_cons]
    cases t.child n with
    | none => rfl
    | some c => exact ih c

theorem get_snoc (p : List N) (n : N) : t.get (p ++ [n]) = (t.get p).bind (fun s => s.child n) := by
  rw [get_append]
  congr 1
  funext s
  rw [get_cons]
  cases s.child n with
  | none => rfl
  | some c => exact get_nil c

theorem look_nil : t.look [] = some t.val := by
  rw [look, get_nil]; rfl

theorem look_cons (n : N) (p : List N) : t.look (n :: p) = (t.child n).bind fun c => c.look p := by
  rw [look, get_cons, Option.map_bind]
  rfl

theorem look_append (p q : List N) : t.look (p ++ q) = (t.get p).bind (fun s => s.look q) := by
  unfold look
  rw [get_append]
  cases t.get p <;> rfl

end

variable {p : List N}

/-- What is below a missing node is missing. -/
theorem look_none_of_prefix {q : List N} (h : p <+: q) (hp : t.look p = none) : t.look q = none := by
  obtain ⟨r, rfl⟩ := h
  rw [look_append, Option.map_eq_none_iff.mp hp]
  rfl

/-! ## Association lists -/

variable [LawfulBEq N]

variable {B : Type} {n : N}

theorem lookup_filter (p : N → Bool) (m : N) (ks : List (N × B)) :
    (ks.filter fun k => p k.1).lookup m = if p m then ks.lookup m else none := by
  induction ks with
  | nil => simp
  | cons k ks ih =>
    obtain ⟨x, b⟩ := k
    by_cases hx : p x
    · rw [filter_cons_of_pos (by exact hx), lookup_cons, lookup_cons, ih]
      cases hm : m == x with
      | false => rfl
      | true => simp [eq_of_beq hm, hx]
    · rw [filter_cons_of_neg (by exact hx), lookup_cons, ih]
      cases hm : m == x with
      | false => rfl
      | true => rw [eq_of_beq hm, if_neg hx, if_neg hx]

theorem lookup_filter_ne {m : N} (h : m ≠ n) (ks : List (N × B)) :
    (ks.filter (fun k => k.1 != n)).lookup m = ks.lookup m :=
  (lookup_filter (· != n) m ks).trans (if_pos (by simpa using h))

variable {ks : List (N × B)} {v : B}

theorem mem_of_lookup (h : ks.lookup n = some v) : (n, v) ∈ ks := by
  obtain ⟨l₁, l₂, rfl, -⟩ := lookup_eq_some_iff.mp h
  exact mem_append_right l₁ mem_cons_self

theorem lookup_of_mem
    (hnd : (ks.map Prod.fst).Nodup) (h : (n, v) ∈ ks) : ks.lookup n = some v := by
  obtain ⟨l₁, l₂, rfl⟩ := append_of_mem h
  rw [map_append, map_cons, nodup_middle, nodup_cons, ← map_append] at hnd
  refine lookup_eq_some_iff.mpr ⟨l₁, l₂, rfl, fun k hk => bne_iff_ne.mpr ?_⟩
  rintro rfl
  exact hnd.1 (mem_map.mpr ⟨k, mem_append_left l₂ hk, rfl⟩)

theorem All.get {s : NameTree N A} (h : All P t) (hg : t.get p = some s) : All P s := by
  induction p generalizing t with
  | nil => rw [get_nil] at hg; cases hg; exact h
  | cons n p ih =>
    rw [get_cons] at hg
    obtain ⟨c, hc, hg⟩ := Option.bind_eq_some_iff.mp hg
    exact ih (h.kids _ (mem_of_lookup hc)) hg

/-- What has something below it has children. -/
theorem All.above {q : List N} (h : All P t) (hq : q ≠ []) (hl : t.look (p ++ q) ≠ none) :
    ∃ a ks, t.look p = some a ∧ P a ks ∧ ks ≠ [] := by
  obtain ⟨n, q, rfl⟩ := exists_cons_of_ne_nil hq
  obtain ⟨a, ha⟩ := Option.ne_none_iff_exists'.mp hl
  rw [look_append] at ha
  obtain ⟨s, hs, ha⟩ := Option.bind_eq_some_iff.mp ha
  rw [look_cons] at ha
  obtain ⟨c, hc, -⟩ := Option.bind_eq_some_iff.mp ha
  exact ⟨s.val, s.kids, by rw [look, hs]; rfl, (h.get hs).here, ne_nil_of_mem (mem_of_lookup hc)⟩

/-- The names on the way to a node are names of children. -/
theorem All.names {G : N → Prop} (h : t.All fun _ ks => ∀ k ∈ ks, G k.1) (hl : t.look p ≠ none) : ∀ n ∈ p, G n := by
  induction p generalizing t with
  | nil => nofun
  | cons n p ih =>
    obtain ⟨a, ha⟩ := Option.ne_none_iff_exists'.mp hl
    rw [look_cons] at ha
    obtain ⟨c, hc, ha⟩ := Option.bind_eq_some_iff.mp ha
    have hmem := mem_of_lookup hc
    exact forall_mem_cons.mpr ⟨h.here _ hmem, ih (h.kids _ hmem) (by simp [ha])⟩

/-! ## Relabelling -/

variable {B : Type} (f : List N → A → B)

mutual
/-- The tree of the same shape whose payloads are computed from the position and the old payload.
`p` is the position of the root. -/
def relabel (f : List N → A → B) (p : List N) : NameTree N A → NameTree N B
  | .node a ks => .node (f p a) (relabelKids f p ks)
def relabelKids (f : List N → A → B) (p : List N) : List (N × NameTree N A) → List (N × NameTree N B)
  | [] => []
  | (n, t) :: ks => (n, relabel f (p ++ [n]) t) :: relabelKids f p ks
end

omit [BEq N] [LawfulBEq N] in
theorem relabelKids_names (p : List N) (ks : List (N × NameTree N A)) :
    (relabelKids f p ks).map Prod.fst = ks.map Prod.fst := by
  induction ks with
  | nil => rw [relabelKids]; rfl
  | cons k ks ih => rw [relabelKids, map_cons, map_cons, ih]

theorem lookup_relabelKids (p : List N) (n : N) (ks : List (N × NameTree N A)) :
    (relabelKids f p ks).lookup n = (ks.lookup n).map (relabel f (p ++ [n])) := by
  induction ks with
  | nil => rw [relabelKids]; rfl
  | cons k ks ih =>
    obtain ⟨m, t⟩ := k
    rw [relabelKids, lookup_cons, lookup_cons, ih]
    cases h : n == m with
    | true => rw [eq_of_beq h]; rfl
    | false => rfl

theorem look_relabel (q : List N) :
    ∀ (p : List N) (t : NameTree N A), (relabel f p t).look q = (t.look q).map (f (p ++ q)) := by
  induction q with
  | nil =>
    intro p t
    obtain ⟨a, ks⟩ := t
    rw [look_nil, look_nil, relabel, append_nil]; rfl
  | cons n q ih =>
    intro p t
    obtain ⟨a, ks⟩ := t
    rw [look, look, get_cons, get_cons, relabel, child, child, kids, kids, lookup_relabelKids]
    cases hl : ks.lookup n with
    | none => rfl
    | some c =>
      have := ih (p ++ [n]) c
      rwa [append_assoc] at this

end NameTree

end DockerEngine
