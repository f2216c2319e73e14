import DockerEngine.Lib.NameTree

/-!
# Maps that are ranged over

A Go map as the list of its entries in the order of one `range` loop. Two values with the same entries
in another order are the same map; statements about every `GoMap` are statements about every order.

`keys_of_size` is what a loop over one of two maps of one size tells about the other.
-/

namespace DockerEngine

open List

/-- A record is found by its key where keys are distinct. -/
theorem find?_of_key {α β : Type} {key : α → β} {l : List α} (h : (l.map key).Nodup) {a : α} (ha : a ∈ l)
    {p : α → Bool} (hp : ∀ b, p b ↔ key b = key a) : l.find? p = some a := by
  cases hfind : l.find? p with
  | none => exact absurd ((hp a).mpr rfl) (find?_eq_none.mp hfind a ha)
  | some b => rw [inj_on_of_nodup_map h (mem_of_find?_eq_some hfind) ha ((hp b).mp (find?_some hfind))]

/-- A finite map, with its entries in some order. -/
structure GoMap (K V : Type) where
  entries : List (K × V)
  nodup : (entries.map Prod.fst).Nodup

namespace GoMap

variable {K V : Type}

/-- `len`. -/
def size (m : GoMap K V) : Nat := m.entries.length

def keys (m : GoMap K V) : List K := m.entries.map Prod.fst

/-- `map[K]V{}`. A nil map reads as the empty one. -/
def empty : GoMap K V := ⟨[], nodup_nil⟩

variable [BEq K]

/-- `v, ok := m[k]`. -/
def get (m : GoMap K V) (k : K) : Option V := m.entries.lookup k

/-- The same map, in whatever order. -/
def Same (a b : GoMap K V) : Prop := ∀ k, a.get k = b.get k

variable [LawfulBEq K] {m : GoMap K V}

theorem mem_iff_get {k : K} {v : V} : (k, v) ∈ m.entries ↔ m.get k = some v :=
  ⟨NameTree.lookup_of_mem m.nodup, NameTree.mem_of_lookup⟩

theorem mem_keys {k : K} : k ∈ m.keys ↔ ∃ v, m.get k = some v := by
  rw [keys, mem_map]
  constructor
  · rintro ⟨⟨k, v⟩, h, rfl⟩
    exact ⟨v, mem_iff_get.mp h⟩
  · rintro ⟨v, h⟩
    exact ⟨(k, v), mem_iff_get.mpr h, rfl⟩

/-- `m[k] = v`. -/
def set (m : GoMap K V) (k : K) (v : V) : GoMap K V where
  entries := (k, v) :: m.entries.filter fun e => e.1 != k
  nodup := by
    rw [map_cons, nodup_cons]
    refine ⟨fun hmem => ?_, (filter_sublist.map Prod.fst).nodup m.nodup⟩
    obtain ⟨e, he, hk⟩ := mem_map.mp hmem
    simpa [hk] using (mem_filter.mp he).2

variable (m : GoMap K V)

@[simp]
theorem get_set_self (k : K) (v : V) : (m.set k v).get k = some v := by
  rw [get, set, lookup_cons, beq_self_eq_true]

@[simp]
theorem get_set_ne {k k' : K} (h : k' ≠ k) (v : V) : (m.set k v).get k' = m.get k' := by
  have hb : (k' == k) = false := by simpa using h
  rw [get, set, lookup_cons, hb, NameTree.lookup_filter_ne h, get]

/-- `delete(m, k)`. -/
def delete (m : GoMap K V) (k : K) : GoMap K V where
  entries := m.entries.filter fun e => e.1 != k
  nodup := (filter_sublist.map Prod.fst).nodup m.nodup

@[simp]
theorem get_delete_self (k : K) : (m.delete k).get k = none := by
  rw [← Option.not_isSome_iff_eq_none, Option.isSome_iff_exists]
  rintro ⟨v, hv⟩
  have hmem := mem_filter.mp (mem_iff_get.mpr hv)
  simp at hmem

@[simp]
theorem get_delete_ne {k k' : K} (h : k' ≠ k) : (m.delete k).get k' = m.get k' := by
  rw [get, delete, NameTree.lookup_filter_ne h, get]

omit [BEq K] [LawfulBEq K] in
/-- Of two maps of one size, one of which has all keys of the other, both have the same keys. -/
theorem keys_of_size {W : Type} {a : GoMap K V} {b : GoMap K W} (hsize : a.size = b.size)
    (hsub : ∀ k ∈ a.keys, k ∈ b.keys) : ∀ k, k ∈ a.keys ↔ k ∈ b.keys := by
  have hle : b.keys.length ≤ a.keys.length := by
    rw [keys, keys, length_map, length_map]
    exact hsize.ge
  exact fun k => ((a.nodup.subperm hsub).perm_of_length_le hle).mem_iff

theorem Same.eq_empty {m : GoMap K V} (h : Same m .empty) : m = .empty := by
  obtain ⟨entries, nodup⟩ := m
  cases entries with
  | nil => rfl
  | cons e es =>
    have hget := mem_iff_get (m := ⟨e :: es, nodup⟩).mp (mem_cons_self (a := e))
    rw [h e.1] at hget
    cases hget

theorem Same.keys {a b : GoMap K V} (h : Same a b) (k : K) : k ∈ a.keys ↔ k ∈ b.keys := by
  rw [mem_keys, mem_keys, h k]

omit [BEq K] [LawfulBEq K] in
theorem size_of_keys {W : Type} {a : GoMap K V} {b : GoMap K W} (h : ∀ k, k ∈ a.keys ↔ k ∈ b.keys) :
    a.size = b.size := by
  have hperm : a.keys.Perm b.keys := (perm_ext_iff_of_nodup a.nodup b.nodup).mpr h
  simpa [keys, size] using hperm.length_eq

end GoMap

end DockerEngine
