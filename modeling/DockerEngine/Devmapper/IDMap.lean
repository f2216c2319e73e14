import DockerEngine.Devmapper.DeviceSet

/-!
# The map of device ids

`deviceIdMap` of `deviceset.go` has a bit for each of the 2^24 device ids, eight to a byte. Whatever calls are made,
it is the set of the ids in use (`device_ids_exact`).
-/

namespace DockerEngine.Devmapper

open BitVec Function

abbrev DeviceID : Type := Fin (2 ^ 24)

/-- The fields `deviceIdMap`, which has `DeviceIdMapSz` bytes, and `NextDeviceId`. -/
structure IDMap where
  bytes : Fin (2 ^ 21) → BitVec 8
  next : DeviceID

namespace IDMap

section

variable (m : IDMap) (id : DeviceID)

/-- `deviceId/8`. -/
def place : Fin (2 ^ 21) := ⟨id / 8, by omega⟩

/-- `1 << uint(deviceId % 8)`. -/
def mask : BitVec 8 := 1#8 <<< (id.val % 8)

def markDeviceIdUsed : IDMap := { m with bytes := update m.bytes (place id) (m.bytes (place id) ||| mask id) }

def markDeviceIdFree : IDMap := { m with bytes := update m.bytes (place id) (m.bytes (place id) &&& ~~~mask id) }

def isDeviceIdFree : Bool := if m.bytes (place id) &&& mask id ≠ 0 then false else true

def incNextDeviceId : IDMap := { m with next := ⟨incDeviceID m.next, Nat.lt_succ_of_le Nat.and_le_right⟩ }

/-- The loop of `getNextFreeDeviceId`, with the number of its rounds. -/
def search : Nat → IDMap → Option DeviceID × IDMap
  | 0, m => (none, m)
  | n + 1, m =>
    if m.isDeviceIdFree m.next then (some m.next, m.markDeviceIdUsed m.next) else search n m.incNextDeviceId

def getNextFreeDeviceId : Option DeviceID × IDMap := search (maxDeviceID + 1) m.incNextDeviceId

inductive Op where
  | used (id : DeviceID)
  | free (id : DeviceID)
  | next

/-- A call: the id that it marks, and whether as free; and the map behind it. -/
def call : Op → List (DeviceID × Bool) × IDMap
  | .used id => ([(id, false)], m.markDeviceIdUsed id)
  | .free id => ([(id, true)], m.markDeviceIdFree id)
  | .next => (m.getNextFreeDeviceId.1.toList.map (·, false), m.getNextFreeDeviceId.2)

/-- The marks of a sequence of calls, the last one first, and the map behind them. -/
def run (ops : List Op) : List (DeviceID × Bool) × IDMap :=
  ops.foldl (fun r op => ((r.2.call op).1 ++ r.1, (r.2.call op).2)) ([], m)

end

variable {m : IDMap} {n : Nat} {i id : DeviceID}

/-- The bit of an id in the byte of another. -/
theorem getLsbD_mask (h : place i = place id) : (mask id).getLsbD (i % 8) = decide (i = id) := by
  have hdiv : i.val / 8 = id.val / 8 := congrArg Fin.val h
  have hbit : (mask id).getLsbD (i % 8) = (decide (id.val % 8 < 8) && decide (id.val % 8 = i % 8)) := getLsbD_twoPow ..
  rw [hbit, Bool.eq_iff_iff]
  simp only [Bool.and_eq_true, decide_eq_true_eq, Fin.ext_iff]
  omega

theorem isDeviceIdFree_eq : m.isDeviceIdFree i = !(m.bytes (place i)).getLsbD (i % 8) := by
  have hand : m.bytes (place i) &&& mask i = if (m.bytes (place i)).getLsbD (i % 8) then mask i else 0 := and_twoPow ..
  have hmask : mask i ≠ 0 := fun h => by simpa [h] using getLsbD_mask (rfl : place i = place i)
  rw [isDeviceIdFree, hand]
  cases (m.bytes (place i)).getLsbD (i % 8) with
  | false => rfl
  | true => exact if_pos hmask

theorem isDeviceIdFree_used : (m.markDeviceIdUsed id).isDeviceIdFree = update m.isDeviceIdFree id false := by
  funext i
  rw [update_apply, isDeviceIdFree_eq, isDeviceIdFree_eq, markDeviceIdUsed]
  by_cases h : place i = place id
  · simp only [h, update_self, getLsbD_or, getLsbD_mask h]
    by_cases hi : i = id <;> simp [hi]
  · have hi : i ≠ id := fun heq => h (heq ▸ rfl)
    simp [h, hi]

theorem isDeviceIdFree_free : (m.markDeviceIdFree id).isDeviceIdFree = update m.isDeviceIdFree id true := by
  funext i
  rw [update_apply, isDeviceIdFree_eq, isDeviceIdFree_eq, markDeviceIdFree]
  by_cases h : place i = place id
  · simp only [h, update_self, getLsbD_and, getLsbD_not, getLsbD_mask h]
    by_cases hi : i = id <;> simp [hi, Nat.mod_lt]
  · have hi : i ≠ id := fun heq => h (heq ▸ rfl)
    simp [h, hi]

/-- An allocation marks an id that was free, or fails and there was none. -/
def Allocates (m : IDMap) : Option DeviceID × IDMap → Prop
  | (some id, m') => m.isDeviceIdFree id ∧ m'.isDeviceIdFree = update m.isDeviceIdFree id false
  | (none, m') => (∀ i, m.isDeviceIdFree i = false) ∧ m'.isDeviceIdFree = m.isDeviceIdFree

/-- The loop comes to all ids that are free in as many rounds as they are away. -/
theorem search_allocates (h : ∀ i, m.isDeviceIdFree i → (i - m.next).val < n) : m.Allocates (search n m) := by
  induction n generalizing m with
  | zero => exact ⟨fun i => Bool.eq_false_iff.mpr fun hi => absurd (h i hi) (Nat.not_lt_zero _), rfl⟩
  | succ n ih =>
    rw [search]
    split
    next hnext => exact ⟨hnext, isDeviceIdFree_used⟩
    next hnext =>
      -- the next id changes, and the map does not
      refine ih (m := m.incNextDeviceId) fun i hi => ?_
      have hne : i.val ≠ m.next.val := fun heq => hnext (Fin.ext heq ▸ hi)
      have hlt := h i hi
      have hinc : m.incNextDeviceId.next = m.next + 1 := Fin.ext (Nat.and_two_pow_sub_one_eq_mod _ 24)
      rw [Fin.val_sub] at hlt
      rw [hinc, Fin.val_sub, Fin.val_add, Fin.val_one]
      omega

theorem getNextFreeDeviceId_allocates (m : IDMap) : m.Allocates m.getNextFreeDeviceId :=
  search_allocates (m := m.incNextDeviceId) fun _ _ => Fin.isLt _

/-- **The map is the set of the ids in use.** After any calls an id is free as its last mark says; and the next id that
is allocated was free and is the only one marked, or the call fails and all ids are in use. -/
theorem device_ids_exact (m : IDMap) (ops : List Op) :
    (∀ i, (m.run ops).2.isDeviceIdFree i = ((m.run ops).1.lookup i).getD (m.isDeviceIdFree i)) ∧
      (m.run ops).2.Allocates (m.run ops).2.getNextFreeDeviceId := by
  refine ⟨fun i => ?_, getNextFreeDeviceId_allocates _⟩
  induction ops using List.reverseRecOn with
  | nil => rfl
  | append_singleton ops op ih =>
    have hrun : m.run (ops ++ [op]) = (((m.run ops).2.call op).1 ++ (m.run ops).1, ((m.run ops).2.call op).2) :=
      List.foldl_append
    have hmark : ∀ id b, update (m.run ops).2.isDeviceIdFree id b i =
        (([(id, b)] ++ (m.run ops).1).lookup i).getD (m.isDeviceIdFree i) := by
      intro id b
      rw [update_apply, ih, List.singleton_append, List.lookup_cons]
      by_cases h : i = id <;> simp [h, beq_eq_false_iff_ne.mpr]
    rw [hrun]
    cases op with
    | used id => exact (congrFun isDeviceIdFree_used i).trans (hmark id false)
    | free id => exact (congrFun isDeviceIdFree_free i).trans (hmark id true)
    | next =>
      have hnext := getNextFreeDeviceId_allocates (m.run ops).2
      rw [call]
      match (m.run ops).2.getNextFreeDeviceId, hnext with
      | (none, m'), hnone => exact (congrFun hnone.2 i).trans ih
      | (some id, m'), hsome => exact (congrFun hsome.2 i).trans (hmark id false)

end IDMap

end DockerEngine.Devmapper
