import DockerEngine.Devmapper.DeviceSet
import DockerEngine.Lib.Trace

/-!
# Devices after a crash

The devices are described by a table: the object of each file of the metadata directory that belongs to a
device. It is `Matched` to the ids of the pool if these are the ids in the table and no id stands in it twice.

A disk is at rest (`Rest`) when its table is matched and no transaction is open. In an open transaction
(`Open`) the table and the pool may differ, but only about the device that the transaction is about; without
this device they are matched. Every disk that a crash can leave behind is one of the two (`Settles`), and says
by itself which table it will have after a restart: making a device is undone, deleting a device is finished.
The start of the driver keeps that table through any number of crashes (`start_safe`). So a run with crashes
goes through the tables of a run in which every operation happens as a whole, where one that a crash stopped
has happened or not (`devices_survive`).

This needs a transaction id that is greater than that of the pool. The id after the greatest one of 64 bits is
zero; a transaction that is opened with it is not undone (`wraparound`). It also needs hashes whose file is not
taken for another one: image and container ids are such, but not the names that the driver uses itself.
-/

namespace DockerEngine.Devmapper

open Filepath Crash List Function AList Trace

/-! ## Tables -/

/-- The file belongs to a device. -/
def isDeviceFile (name : Str) : Bool := !passedOver name && name != transactionMetaFile

/-- The objects of the devices, by the names of their files. -/
abbrev Table : Type := Str → Option Object

/-- The table of a disk. -/
def table (d : Disk) : Table := fun f => if isDeviceFile f then d.files.lookup f else none

/-- The device id in an object. -/
def Object.id (o : Object) : Nat := o.deviceID.getD 0

/-- The table has exactly the given ids, and each of them once. -/
structure Matched (t : Table) (ids : Finset Nat) : Prop where
  distinct : ∀ f g o p, t f = some o → t g = some p → o.id = p.id → f = g
  exact : ∀ id, id ∈ ids ↔ ∃ f o, t f = some o ∧ o.id = id

/-- A hash with a file of its own among those of the devices. -/
def Plain (hash : Str) : Prop := '/' ∉ hash ∧ hash ≠ "base".toList ∧ isDeviceFile (metadataFile hash) = true

instance (hash : Str) : Decidable (Plain hash) := inferInstanceAs (Decidable (_ ∧ _ ∧ _))

section Tables

variable {t : Table} {ids : Finset Nat} {f hash : Str} {o : Object} {d : Disk}

theorem Matched.insert (h : Matched t ids) (hf : t f = none) (ho : o.id ∉ ids) :
    Matched (update t f (some o)) (insert o.id ids) := by
  have hnew : ∀ g p, t g = some p → p.id ≠ o.id := by
    intro g p hp he
    exact ho ((h.exact o.id).mpr ⟨g, p, hp, he⟩)
  constructor
  · intro x y p q hp hq he
    simp only [update_apply] at hp hq
    split at hp
    next hx =>
      split at hq
      next hy => rw [hx, hy]
      · cases hp
        exact (hnew y q hq he.symm).elim
    · split at hq
      · cases hq
        exact (hnew x p hp he).elim
      · exact h.distinct x y p q hp hq he
  · intro id
    rw [Finset.mem_insert, h.exact]
    constructor
    · rintro (rfl | ⟨g, p, hp, he⟩)
      · exact ⟨f, o, by simp, rfl⟩
      have hg : g ≠ f := by
        rintro rfl
        rw [hf] at hp
        cases hp
      exact ⟨g, p, by rw [update_of_ne hg, hp], he⟩
    · rintro ⟨g, p, hp, he⟩
      simp only [update_apply] at hp
      split at hp
      · cases hp
        exact .inl he.symm
      · exact .inr ⟨g, p, hp, he⟩

theorem Matched.erase (h : Matched t ids) (hf : t f = some o) : Matched (update t f none) (ids.erase o.id) := by
  constructor
  · intro x y p q hp hq he
    simp only [update_apply] at hp hq
    split at hp
    · cases hp
    · split at hq
      · cases hq
      · exact h.distinct x y p q hp hq he
  · intro id
    rw [Finset.mem_erase, h.exact]
    constructor
    · rintro ⟨hne, g, p, hp, he⟩
      have hg : g ≠ f := by
        rintro rfl
        rw [hf] at hp
        cases hp
        exact hne he.symm
      exact ⟨g, p, by rw [update_of_ne hg, hp], he⟩
    · rintro ⟨g, p, hp, he⟩
      simp only [update_apply] at hp
      split at hp
      · cases hp
      next hg =>
        refine ⟨fun hid => hg ?_, g, p, hp, he⟩
        exact h.distinct g f p o hp hf (he.trans hid)

theorem Plain.file (h : Plain hash) : isDeviceFile (metadataFile hash) := h.2.2

theorem metadataFile_ne_nil (hash : Str) : metadataFile hash ≠ [] := by
  unfold metadataFile
  split
  · decide
  next hne => exact hne

theorem metadataFile_injective {h₁ h₂ : Str} (hp₁ : Plain h₁) (hp₂ : Plain h₂)
    (h : metadataFile h₁ = metadataFile h₂) : h₁ = h₂ := by
  unfold metadataFile at h
  split at h
  next hnil =>
    split at h
    next hnil' => rw [hnil, hnil']
    · exact (hp₂.2.1 h.symm).elim
  · split at h
    · exact (hp₁.2.1 h).elim
    · exact h

theorem ne_transactionMetaFile (hf : isDeviceFile f) : f ≠ transactionMetaFile := by
  rintro rfl
  revert hf
  decide

theorem table_apply (hf : isDeviceFile f) : table d f = d.files.lookup f := if_pos hf

theorem mem_keys_of_table (ho : table d f = some o) : f ∈ d.files.keys := by
  unfold table at ho
  split at ho
  · exact mem_keys.mp (lookup_isSome.mp (by rw [ho]; rfl))
  · cases ho

/-- The table after a change of one file. -/
theorem table_update {d' : Disk} {x : Option Object} (hself : d'.files.lookup f = x)
    (hne : ∀ g ≠ f, d'.files.lookup g = d.files.lookup g) (hf : isDeviceFile f) :
    table d' = update (table d) f x := by
  ext1 g
  by_cases hg : g = f
  · rw [hg, table_apply hf, update_self, hself]
  · rw [update_of_ne hg, table, table, hne g hg]

theorem table_eraseFile (hf : isDeviceFile f) : table (d.eraseFile f) = update (table d) f none :=
  table_update (lookup_erase _ _) (fun _ => lookup_erase_ne) hf

/-- The record of the transaction is not in the table. -/
theorem table_congr {d' : Disk} (hne : ∀ g ≠ transactionMetaFile, d'.files.lookup g = d.files.lookup g) :
    table d' = table d := by
  ext1 g
  by_cases hg : g = transactionMetaFile
  · rw [hg]
    rfl
  · rw [table, table, hne g hg]

theorem table_setFile_transaction : table (d.setFile transactionMetaFile o) = table d :=
  table_congr fun _ => lookup_insert_ne

/-- A device is looked up in the table. -/
theorem loadMetadata_eq (h : Plain hash) :
    loadMetadata d hash = (table d (metadataFile hash)).map fun o => o.devInfo hash := by
  rw [table_apply h.file]
  rfl

end Tables

/-! ## Disks -/

/-- The disk has the table `t`, which is matched, and no open transaction. No file has an empty name. -/
structure Rest (t : Table) (d : Disk) : Prop where
  table : table d = t
  matched : Matched t d.pool.ids
  closed : ∀ o, d.files.lookup transactionMetaFile = some o → ¬ d.pool.transactionID < o.openTransactionID.getD 0
  migrated : d.oldMetadata = none
  named : d.files.lookup [] = none

/-- A transaction about the hash and the id is open, and without this device the table is `t` and matched. -/
structure Open (t : Table) (hash : Str) (id : Nat) (d : Disk) : Prop where
  plain : Plain hash
  pending : ∃ n, d.files.lookup transactionMetaFile = some (Transaction.marshal ⟨n, hash, id⟩) ∧
    d.pool.transactionID < n
  table : update (table d) (metadataFile hash) none = t
  matched : Matched t (d.pool.ids.erase id)
  migrated : d.oldMetadata = none
  named : d.files.lookup [] = none

/-- The disk comes to rest with the table `t`. -/
def Settles (t : Table) (d : Disk) : Prop := Rest t d ∨ ∃ hash id, Open t hash id d

/-- A device set in operation: it knows the transaction id and all ids in use, and what it remembers of a
device is what the file says. -/
structure Ready (t : Table) (ids : Finset Nat) (v : DeviceSet) (d : Disk) : Prop where
  rest : Rest t d
  pool : d.pool.ids = ids
  transactionID : v.transactionID = d.pool.transactionID
  map : ids ⊆ v.deviceIDMap
  cache : ∀ h info, v.devices.lookup h = some info → Plain h ∧ loadMetadata d h = some info

/-- A device set with an open transaction. -/
structure Working (hash : Str) (id : Nat) (t : Table) (ids : Finset Nat) (v : DeviceSet) (d : Disk) :
    Prop where
  table : table d = t
  pool : d.pool.ids = ids
  transactionID : v.transactionID = d.pool.transactionID
  room : v.transactionID < v.transactionID + 1
  transaction : v.transaction = ⟨v.transactionID + 1, hash, id⟩
  saved : d.files.lookup transactionMetaFile = some v.transaction.marshal
  map : insert id ids ⊆ v.deviceIDMap
  cache : ∀ h info, v.devices.lookup h = some info → Plain h ∧ loadMetadata d h = some info
  migrated : d.oldMetadata = none
  named : d.files.lookup [] = none

/-- There is a transaction id after that of the pool. -/
def Room (d : Disk) : Prop := d.pool.transactionID < d.pool.transactionID + 1

instance (d : Disk) : Decidable (Room d) := inferInstanceAs (Decidable (_ < _))

/-- The disk comes to rest with one of the tables of `goal`. -/
def Stopped (goal : Table → Prop) (d : Disk) : Prop := ∃ t, goal t ∧ Settles t d

/-- Undoing the transaction leads to a table of `goal`. -/
structure Undoes (goal : Table → Prop) (hash : Str) (id : Nat) (t : Table) (ids : Finset Nat) : Prop where
  plain : Plain hash
  goal : goal (update t (metadataFile hash) none)
  matched : Matched (update t (metadataFile hash) none) (ids.erase id)

section Transactions

variable {goal : Table → Prop} {hash : Str} {id : Nat} {t : Table} {ids : Finset Nat} {v : DeviceSet}
  {d : Disk} {E : DeviceSet → Disk → Prop}

theorem Working.stopped (h : Working hash id t ids v d) (hu : Undoes goal hash id t ids) : Stopped goal d := by
  refine ⟨_, hu.goal, .inr ⟨hash, id, hu.plain, ⟨v.transactionID + 1, ?_, ?_⟩, ?_, ?_, h.migrated, h.named⟩⟩
  · rw [h.saved, h.transaction]
  · rw [← h.transactionID]
    exact h.room
  · rw [h.table]
  · rw [h.pool]
    exact hu.matched

section

variable (hu : Undoes goal hash id t ids)
include hu

theorem Undoes.setDevice (x : Option Object) : Undoes goal hash id (update t (metadataFile hash) x) ids := by
  refine ⟨hu.plain, ?_, ?_⟩
  · rw [update_idem]
    exact hu.goal
  · rw [update_idem]
    exact hu.matched

theorem Undoes.addID : Undoes goal hash id t (insert id ids) := by
  refine ⟨hu.plain, hu.goal, ?_⟩
  rw [Finset.erase_insert_eq_erase ids id]
  exact hu.matched

theorem Undoes.eraseID : Undoes goal hash id t (ids.erase id) := by
  refine ⟨hu.plain, hu.goal, ?_⟩
  rw [Finset.erase_idem]
  exact hu.matched

end

section

variable (hu : Undoes goal hash id t ids)
include hu

theorem openTransaction_safe :
    Safe (Stopped goal) (fun v d => (Ready t ids v d ∧ id ∈ v.deviceIDMap) ∧ Room d)
      (openTransaction hash id) (fun _ => Working hash id t ids) E := by
  refine .bind (Q := fun _ v d => ∃ v₀, v = v₀.allocate hash id ∧
    (Ready t ids v₀ d ∧ id ∈ v₀.deviceIDMap) ∧ Room d)
    (.remember fun v d h => ⟨v, rfl, h⟩) fun _ => ?_
  refine .look_bind fun tx => .write fun v d h _ => ?_
  obtain ⟨⟨v₀, rfl, ⟨hready, hid⟩, hroom⟩, rfl⟩ := h
  have hworking : Working hash id t ids (v₀.allocate hash id)
      (d.setFile transactionMetaFile (v₀.allocate hash id).transaction.marshal) := by
    refine ⟨table_setFile_transaction.trans hready.rest.table, hready.pool, hready.transactionID, ?_, rfl,
      lookup_insert _, ?_, fun h info hi => ?_, hready.rest.migrated,
      (lookup_insert_ne (by decide)).trans hready.rest.named⟩
    · show v₀.transactionID < v₀.transactionID + 1
      rw [hready.transactionID]
      exact hroom
    · exact Finset.insert_subset hid hready.map
    · obtain ⟨hp, hload⟩ := hready.cache h info hi
      refine ⟨hp, ?_⟩
      rw [loadMetadata_eq hp, table_setFile_transaction, ← loadMetadata_eq hp, hload]
  exact ⟨hworking.stopped hu, hworking⟩

theorem createSnapDevice_safe {baseID : Nat} (hid : id ∉ ids) (hmax : id ≤ maxDeviceID) (hbase : baseID ∈ ids) :
    Safe (Stopped goal) (Working hash id t ids) (createSnapDevice id baseID)
      (fun _ => Working hash id t (insert id ids)) fun _ _ => False := by
  refine .look_bind fun pool => ?_
  refine .start fun v d hvd => ?_
  obtain ⟨h, rfl⟩ := hvd
  rw [if_neg (by rw [h.pool]; exact hid), if_neg (by rw [h.pool]; simpa using hbase), dif_pos hmax]
  refine .write fun v' d' hvd _ => ?_
  obtain ⟨rfl, rfl⟩ := hvd
  have hworking : Working hash id t (insert id ids) v' (d'.addDevice id hmax) := by
    refine ⟨h.table, ?_, h.transactionID, h.room, h.transaction, h.saved, ?_, h.cache, h.migrated, h.named⟩
    · show insert id d'.pool.ids = _
      rw [h.pool]
    · rw [Finset.insert_idem]
      exact h.map
  exact ⟨hworking.stopped hu.addID, hworking⟩

theorem deletePoolDevice_safe (hid : id ∈ ids) :
    Safe (Stopped goal) (Working hash id t ids) (deletePoolDevice id)
      (fun _ => Working hash id t (ids.erase id)) fun _ _ => False := by
  refine .look_bind fun pool => ?_
  refine .start fun v d hvd => ?_
  obtain ⟨h, rfl⟩ := hvd
  rw [if_pos (by rw [h.pool]; exact hid)]
  refine .write fun v' d' hvd _ => ?_
  obtain ⟨rfl, rfl⟩ := hvd
  have hworking : Working hash id t (ids.erase id) v' (d'.eraseDevice id) := by
    refine ⟨h.table, ?_, h.transactionID, h.room, h.transaction, h.saved, ?_, h.cache, h.migrated, h.named⟩
    · show d'.pool.ids.erase id = _
      rw [h.pool]
    · exact (Finset.insert_subset_insert id (Finset.erase_subset id ids)).trans h.map
  exact ⟨hworking.stopped hu.eraseID, hworking⟩

end

/-- Writing or removing the file of the device keeps the cache right, if it says the same about the device. -/
theorem Working.setFile (h : Working hash id t ids v d) (hp : Plain hash) (v' : DeviceSet) (d' : Disk)
    (x : Option Object) (hself : d'.files.lookup (metadataFile hash) = x)
    (hne : ∀ g ≠ metadataFile hash, d'.files.lookup g = d.files.lookup g) (hpool : d'.pool = d.pool)
    (hold : d'.oldMetadata = d.oldMetadata)
    (hv : v'.transactionID = v.transactionID ∧ v'.transaction = v.transaction ∧
      v'.deviceIDMap = v.deviceIDMap)
    (hmine : ∀ info, v'.devices.lookup hash = some info → x.map (·.devInfo hash) = some info)
    (hothers : ∀ k ≠ hash, v'.devices.lookup k = v.devices.lookup k) :
    Working hash id (update t (metadataFile hash) x) ids v' d' := by
  obtain ⟨hv₁, hv₂, hv₃⟩ := hv
  have htable := table_update hself hne hp.file
  have htx := hne _ (ne_transactionMetaFile hp.file).symm
  refine ⟨by rw [htable, h.table], by rw [hpool, h.pool], by rw [hv₁, hpool, h.transactionID],
    by rw [hv₁]; exact h.room, by rw [hv₁, hv₂, h.transaction], by rw [htx, hv₂, h.saved],
    by rw [hv₃]; exact h.map, fun k info hk => ?_, by rw [hold, h.migrated],
    (hne _ (metadataFile_ne_nil hash).symm).trans h.named⟩
  by_cases hkey : k = hash
  · subst hkey
    refine ⟨hp, ?_⟩
    rw [loadMetadata_eq hp, htable, update_self]
    exact hmine info hk
  · rw [hothers k hkey] at hk
    obtain ⟨hpk, hload⟩ := h.cache k info hk
    have hfile : metadataFile k ≠ metadataFile hash := fun he => hkey (metadataFile_injective hpk hp he)
    refine ⟨hpk, ?_⟩
    rw [loadMetadata_eq hpk] at hload ⊢
    rw [htable, update_of_ne hfile]
    exact hload

theorem registerDevice_safe (hu : Undoes goal hash id t ids) (size transactionID : UInt64) :
    Safe (Stopped goal) (Working hash id t ids) (registerDevice id hash size transactionID)
      (fun _ => Working hash id (update t (metadataFile hash)
        (some (DevInfo.marshal ⟨hash, id, size, transactionID, false⟩))) ids) E := by
  refine .bind (Q := fun _ v d => ∃ v₀ : DeviceSet,
    v = v₀.cache ⟨hash, id, size, transactionID, false⟩ ∧ Working hash id t ids v₀ d)
    (.remember fun v d h => ⟨v, rfl, h⟩) fun _ => .write fun v d h _ => ?_
  obtain ⟨v₀, rfl, h⟩ := h
  have hworking := h.setFile hu.plain (v₀.cache ⟨hash, id, size, transactionID, false⟩)
    (d.setFile (metadataFile hash) (DevInfo.marshal ⟨hash, id, size, transactionID, false⟩)) _
    (lookup_insert _) (fun _ => lookup_insert_ne) rfl rfl ⟨rfl, rfl, rfl⟩
    (fun info hk => (lookup_insert v₀.devices).symm.trans hk) fun _ => lookup_insert_ne
  exact ⟨hworking.stopped (hu.setDevice _), hworking⟩

theorem unregisterDevice_safe (hu : Undoes goal hash id t ids) :
    Safe (Stopped goal) (Working hash id t ids) (unregisterDevice hash)
      (fun _ => Working hash id (update t (metadataFile hash) none) ids) E := by
  refine .bind (Q := fun _ v d => ∃ v₀ : DeviceSet, v = v₀.forget hash ∧ Working hash id t ids v₀ d)
    (.remember fun v d h => ⟨v, rfl, h⟩) fun _ => .write fun v d h _ => ?_
  obtain ⟨v₀, rfl, h⟩ := h
  have hworking := h.setFile hu.plain (v₀.forget hash) (d.eraseFile (metadataFile hash)) _
    (lookup_erase _ _) (fun _ => lookup_erase_ne) rfl rfl ⟨rfl, rfl, rfl⟩
    (fun info hk => (lookup_erase hash v₀.devices).symm.trans hk) fun _ => lookup_erase_ne
  exact ⟨hworking.stopped (hu.setDevice _), hworking⟩

theorem closeTransaction_safe (hm : Matched t ids) (hg : goal t) :
    Safe (Stopped goal) (Working hash id t ids) closeTransaction (fun _ => Ready t ids) fun _ _ => False := by
  refine .look_bind fun v₀ => .look_bind fun current => .start fun v d hvd => ?_
  obtain ⟨⟨h, rfl⟩, rfl⟩ := hvd
  rw [if_pos h.transactionID.symm]
  have hrest : Rest t (d.setTransactionID v.transaction.openTransactionID) := by
    refine ⟨h.table, ?_, fun o ho => ?_, h.migrated, h.named⟩
    · show Matched t d.pool.ids
      rw [h.pool]
      exact hm
    · have hsaved : some v.transaction.marshal = some o := h.saved.symm.trans ho
      cases hsaved
      exact UInt64.lt_irrefl _
  refine .bind (Q := fun _ v' d' => v' = v ∧ d' = d.setTransactionID v.transaction.openTransactionID)
    (.write fun v' d' hvd _ => ?_) fun _ => .remember fun v' d' hvd => ?_
  · obtain ⟨rfl, rfl⟩ := hvd
    exact ⟨⟨t, hg, .inl hrest⟩, rfl, rfl⟩
  · obtain ⟨rfl, rfl⟩ := hvd
    exact ⟨hrest, h.pool, rfl, (Finset.subset_insert id ids).trans h.map, h.cache⟩

end Transactions

/-! ## Operations -/

/-- Making a snapshot of the device `baseHash`, and deleting a device. -/
inductive Op where
  | create (hash baseHash : Str)
  | delete (hash : Str)
  deriving DecidableEq, Repr

def Op.run : Op → Act Unit
  | .create hash baseHash => addDevice hash baseHash
  | .delete hash => deleteDevice hash

/-- What an operation is for: a new device of the size of its base under an id that is not in use, or a device
less. -/
def Effect (t : Table) : Op → Table → Prop
  | .create hash baseHash, t' =>
    t (metadataFile hash) = none ∧ ∃ base id transactionID, t (metadataFile baseHash) = some base ∧
      (∀ f o, t f = some o → o.id ≠ id) ∧
      t' = update t (metadataFile hash) (some (DevInfo.marshal ⟨hash, id, base.size.getD 0, transactionID, false⟩))
  | .delete hash, t' =>
    (∃ o, t (metadataFile hash) = some o) ∧ t' = update t (metadataFile hash) none

/-- The hashes of the operation are plain. -/
def Op.Plain : Op → Prop
  | .create hash baseHash => Devmapper.Plain hash ∧ Devmapper.Plain baseHash
  | .delete hash => Devmapper.Plain hash

instance (o : Op) : Decidable o.Plain :=
  match o with
  | .create _ _ => inferInstanceAs (Decidable (_ ∧ _))
  | .delete hash => inferInstanceAs (Decidable (Devmapper.Plain hash))

section Operations

variable {C : Disk → Prop} {goal : Table → Prop} {hash : Str} {id : Nat} {t : Table} {ids : Finset Nat}
  {E : DeviceSet → Disk → Prop}

/-- A device is found if it is in the table. Looking it up changes only what is remembered. -/
theorem lookupDevice_safe (hp : Plain hash) :
    Safe C (fun v d => Ready t ids v d ∧ Room d) (lookupDevice hash)
      (fun info v d => (∃ o, t (metadataFile hash) = some o ∧ info = o.devInfo hash) ∧
        Ready t ids v d ∧ Room d)
      (fun v d => t (metadataFile hash) = none ∧ Ready t ids v d ∧ Room d) := by
  have hload : ∀ {v d}, Ready t ids v d →
      loadMetadata d hash = (t (metadataFile hash)).map fun o => o.devInfo hash := by
    intro v d h
    rw [loadMetadata_eq hp, h.rest.table]
  refine .look_bind fun cached => ?_
  cases cached with
  | some info =>
    refine .pure _ fun v d h => ⟨?_, h.1⟩
    have hfile := (h.1.1.cache hash info h.2).2
    rw [hload h.1.1] at hfile
    obtain ⟨o, ho, heq⟩ := Option.map_eq_some_iff.mp hfile
    exact ⟨o, ho, heq.symm⟩
  | none =>
    refine .look_bind fun found => ?_
    cases found with
    | none =>
      refine .fail _ fun v d h => ⟨?_, h.1.1⟩
      have hnone := h.2
      rw [hload h.1.1.1] at hnone
      exact Option.map_eq_none_iff.mp hnone
    | some info =>
      refine .bind (Q := fun _ v d => (∃ o, t (metadataFile hash) = some o ∧ info = o.devInfo hash) ∧
        Ready t ids v d ∧ Room d) (.remember fun v d h => ?_) fun _ => .pure _ fun _ _ h => h
      obtain ⟨⟨⟨hready, hroom⟩, -⟩, hfound⟩ := h
      have hsome := hfound
      rw [hload hready] at hsome
      obtain ⟨o, ho, heq⟩ := Option.map_eq_some_iff.mp hsome
      refine ⟨⟨o, ho, heq.symm⟩, ⟨hready.rest, hready.pool, hready.transactionID, hready.map,
        fun k i hk => ?_⟩, hroom⟩
      have hhash : info.hash = hash := by rw [← heq]; rfl
      by_cases hkh : k = hash
      · subst hkh
        have hself : some info = some i := by
          rw [← hk]
          show _ = (v.devices.insert info.hash info).lookup k
          rw [hhash, lookup_insert]
        cases hself
        exact ⟨hp, hfound⟩
      · refine hready.cache k i ?_
        rw [← hk]
        show _ = (v.devices.insert info.hash info).lookup k
        rw [hhash, lookup_insert_ne hkh]

theorem freeFrom_spec {used : Finset Nat} {n id id' : Nat} (hid : id ≤ maxDeviceID)
    (h : freeFrom used n id = some id') : id' ∉ used ∧ id' ≤ maxDeviceID := by
  induction n generalizing id with
  | zero => cases h
  | succ n ih =>
    rw [freeFrom] at h
    split at h
    · exact ih Nat.and_le_right h
    next hfree =>
      cases h
      exact ⟨hfree, hid⟩

/-- The next id is one that the pool does not have. -/
theorem getNextFreeDeviceID_safe :
    Safe C (fun v d => Ready t ids v d ∧ Room d) getNextFreeDeviceID
      (fun id v d => (id ∉ ids ∧ id ≤ maxDeviceID) ∧ (Ready t ids v d ∧ id ∈ v.deviceIDMap) ∧ Room d)
      fun _ _ => True := by
  refine .look_bind fun found => ?_
  cases found with
  | none =>
    exact .bind (Q := fun _ _ _ => True) (.remember fun _ _ _ => trivial) fun _ =>
      Safe.fail _ fun _ _ h => h
  | some id =>
    refine .bind (.remember fun v d h => ?_) fun _ => .pure id fun _ _ h => h
    obtain ⟨⟨hready, hroom⟩, hfound⟩ := h
    obtain ⟨hfree, hmax⟩ := freeFrom_spec Nat.and_le_right hfound
    refine ⟨⟨fun hid => hfree (hready.map hid), hmax⟩, ⟨⟨hready.rest, hready.pool, hready.transactionID,
      ?_, hready.cache⟩, ?_⟩, hroom⟩
    · exact hready.map.trans (Finset.subset_insert id v.deviceIDMap)
    · exact Finset.mem_insert_self id v.deviceIDMap

theorem createSnapLoop_safe (hu : Undoes goal hash id t ids) {baseID : Nat} (hid : id ∉ ids)
    (hmax : id ≤ maxDeviceID) (hbase : baseID ∈ ids) (n : Nat) :
    Safe (Stopped goal) (Working hash id t ids) (createSnapLoop baseID (n + 1) id)
      (fun id' v d => id' = id ∧ Working hash id t (insert id ids) v d) fun _ _ => True := by
  refine .bind (createSnapDevice_safe hu hid hmax hbase).result fun r => ?_
  cases r with
  | ok u => exact .pure _ fun v d h => ⟨rfl, h.1 u rfl⟩
  | error e => exact (Safe.absurd _).pre fun v d h => h.2 e rfl

section

variable (hm : Matched t ids) (hp : Plain hash)
include hm hp

/-- A call that is stopped has the effect of `o` or none, and one that returns has it. -/
abbrev Does (t : Table) (ids : Finset Nat) (o : Op) (m : Act Unit) : Prop :=
  Safe (Stopped fun t' => t' = t ∨ Effect t o t') (fun v d => Ready t ids v d ∧ Room d) m
    (fun _ v d => ∃ t' ids', Effect t o t' ∧ Ready t' ids' v d) fun _ _ => True

theorem createRegisterSnapDevice_safe (hf : t (metadataFile hash) = none) {baseHash : Str} {base : Object}
    (hbase : t (metadataFile baseHash) = some base) :
    Does t ids (.create hash baseHash) (createRegisterSnapDevice hash (base.devInfo baseHash)) := by
  refine .bind getNextFreeDeviceID_safe fun id => .fact fun hid => ?_
  obtain ⟨hid, hmax⟩ := hid
  have hsame : update t (metadataFile hash) none = t := by
    rw [← hf, update_eq_self]
  have hu : Undoes (fun t' => t' = t ∨ Effect t (.create hash baseHash) t') hash id t ids := by
    refine ⟨hp, .inl hsame, ?_⟩
    rw [hsame, Finset.erase_eq_of_notMem hid]
    exact hm
  refine .bind (openTransaction_safe hu) fun _ => ?_
  have hbaseID : (base.devInfo baseHash).deviceID ∈ ids := (hm.exact _).mpr ⟨_, base, hbase, rfl⟩
  refine .bind (createSnapLoop_safe hu hid hmax hbaseID maxDeviceID) fun id' => .fact fun hid' => ?_
  subst hid'
  refine .look_bind fun openID => ?_
  refine .bind ((registerDevice_safe hu.addID (base.size.getD 0) openID).pre fun _ _ h => h.1) fun _ => ?_
  have hnew := hm.insert (o := DevInfo.marshal ⟨hash, id', base.size.getD 0, openID, false⟩) hf hid
  have heffect : Effect t (.create hash baseHash) (update t (metadataFile hash)
      (some (DevInfo.marshal ⟨hash, id', base.size.getD 0, openID, false⟩))) :=
    ⟨hf, base, id', openID, hbase, fun f o ho he => hid ((hm.exact id').mpr ⟨f, o, ho, he⟩), rfl⟩
  exact (Safe.onError (closeTransaction_safe hnew (.inr heffect)) (Safe.absurd _)).mono (fun _ _ h => h)
    (fun _ _ _ h => ⟨_, _, heffect, h⟩) fun _ _ _ => trivial

theorem addDevice_safe {baseHash : Str} (hpb : Plain baseHash) :
    Does t ids (.create hash baseHash) (addDevice hash baseHash) := by
  refine .bind ((lookupDevice_safe hpb).mono (fun _ _ h => h) (fun _ _ _ h => h) fun _ _ _ => trivial)
    fun info => .fact fun hinfo => ?_
  obtain ⟨base, hbase, rfl⟩ := hinfo
  refine .bind (lookupDevice_safe hp).result fun r => ?_
  cases r with
  | ok info => exact .fail _ fun _ _ _ => trivial
  | error e =>
    refine .pre (P := fun v d => t (metadataFile hash) = none ∧ Ready t ids v d ∧ Room d)
      (.fact fun hf => ?_) fun v d h => h.2 e rfl
    exact createRegisterSnapDevice_safe hm hp hf hbase

theorem deleteDevice_safe : Does t ids (.delete hash) (deleteDevice hash) := by
  refine .bind ((lookupDevice_safe hp).mono (fun _ _ h => h) (fun _ _ _ h => h) fun _ _ _ => trivial)
    fun info => .fact fun hinfo => ?_
  obtain ⟨o, ho, rfl⟩ := hinfo
  have heffect : Effect t (.delete hash) (update t (metadataFile hash) none) := ⟨⟨o, ho⟩, rfl⟩
  have hmatched := hm.erase ho
  have hid : o.id ∈ ids := (hm.exact _).mpr ⟨_, o, ho, rfl⟩
  have hu : Undoes (fun t' => t' = t ∨ Effect t (.delete hash) t') hash o.id t ids :=
    ⟨hp, .inr heffect, hmatched⟩
  refine .mono (Q := fun _ => Ready (update t (metadataFile hash) none) (ids.erase o.id))
    (E := fun _ _ => False) ?_ (fun _ _ h => h) (fun _ _ _ h => ⟨_, _, heffect, h⟩) fun _ _ h => h.elim
  refine .bind ((openTransaction_safe hu).pre fun v d h => ⟨⟨h.1, h.1.map hid⟩, h.2⟩) fun _ =>
    Safe.bind (deletePoolDevice_safe hu hid) fun _ =>
    Safe.bind (unregisterDevice_safe hu.eraseID) fun _ =>
    Safe.bind (closeTransaction_safe hmatched (.inr heffect)) fun _ => .remember fun v d h => ?_
  refine ⟨h.rest, h.pool, h.transactionID, fun x hx => ?_, h.cache⟩
  exact Finset.mem_erase.mpr ⟨Finset.ne_of_mem_erase hx, h.map hx⟩

end

/-- An operation, wherever it is stopped, has happened or not. -/
theorem op_safe (hm : Matched t ids) (o : Op) (hp : o.Plain) :
    Does t ids o o.run := by
  cases o with
  | create hash baseHash => exact addDevice_safe hm hp.1 hp.2
  | delete hash => exact deleteDevice_safe hm hp

end Operations

/-! ## The start of the driver -/

section Start

variable {t : Table} {d₀ : Disk} {C : Disk → Prop}

/-- The memory while the device ids are collected: nothing is remembered of devices and transactions. -/
structure Fresh (n : UInt64) (v : DeviceSet) : Prop where
  devices : v.devices = ∅
  transactionID : v.transactionID = n
  transaction : v.transaction = ⟨0, [], 0⟩

/-- The map has the ids of these files. -/
def Marked (d : Disk) (names : List Str) (v : DeviceSet) : Prop :=
  ∀ f ∈ names, ∀ o, table d f = some o → o.id ≤ maxDeviceID → o.id ∈ v.deviceIDMap

/-- The walk marks the id for this file. -/
def Walked (d : Disk) (f : Str) (id : Nat) : Prop :=
  passedOver f = false ∧ ∃ o, d.files.lookup f = some o ∧ o.id = id ∧ id ≤ maxDeviceID

/-- The map has the ids for which there is a file, be it that of a device or that of a transaction. -/
def Collected (d : Disk) (v : DeviceSet) : Prop := ∀ id, id ∈ v.deviceIDMap ↔ ∃ f ∈ d.files.keys, Walked d f id

theorem deviceFileWalk_run {name : Str} {o : Object} (ho : d₀.files.lookup name = some o) (hne : name ≠ [])
    (v : DeviceSet) (past : List Disk) : ∃ ids,
      deviceFileWalk name ⟨v, d₀, past⟩ = (.ok (), ⟨{ v with deviceIDMap := ids }, d₀, past⟩) ∧
      ∀ id, id ∈ ids ↔ id ∈ v.deviceIDMap ∨ Walked d₀ name id := by
  unfold deviceFileWalk Walked
  split
  next hpassed => exact ⟨v.deviceIDMap, rfl, fun id => by simp [hpassed]⟩
  next hpassed =>
  have hfile : metadataFile (if name = "base".toList then [] else name) = name := by
    split
    next hbase => exact hbase.symm
    · exact if_neg hne
  generalize (if name = "base".toList then [] else name) = hash at hfile ⊢
  have hload : loadMetadata d₀ hash = some (o.devInfo hash) := by
    rw [loadMetadata, hfile, ho]
    rfl
  simp only [look, Proc.read_bind_run, hload]
  split
  next hbig =>
    refine ⟨v.deviceIDMap, rfl, fun id => (or_iff_left ?_).symm⟩
    rintro ⟨-, o', ho', rfl, hle⟩
    cases ho.symm.trans ho'
    exact Nat.not_lt.mpr hle hbig
  next hle =>
    refine ⟨insert o.id v.deviceIDMap, rfl, fun id => ?_⟩
    rw [Finset.mem_insert, or_comm, ho]
    refine or_congr_right ⟨?_, ?_⟩
    · rintro rfl
      exact ⟨Bool.eq_false_iff.mpr hpassed, o, rfl, rfl, Nat.not_lt.mp hle⟩
    · rintro ⟨-, o', ho', rfl, -⟩
      cases ho'
      rfl

theorem constructDeviceIDMap_safe {n : UInt64} (hnamed : d₀.files.lookup [] = none) :
    Safe C (fun v d => v = { DeviceSet.new with transactionID := n } ∧ d = d₀) constructDeviceIDMap
      (fun _ v d => d = d₀ ∧ Fresh n v ∧ Collected d₀ v) fun _ _ => False := by
  have hloop : ∀ names : List Str, (∀ name ∈ names, name ∈ d₀.files.keys) → ∀ v past, ∃ ids,
      names.forM deviceFileWalk ⟨v, d₀, past⟩ = (.ok (), ⟨{ v with deviceIDMap := ids }, d₀, past⟩) ∧
      ∀ id, id ∈ ids ↔ id ∈ v.deviceIDMap ∨ ∃ f ∈ names, Walked d₀ f id := by
    intro names
    induction names with
    | nil => exact fun _ v past => ⟨v.deviceIDMap, rfl, by simp⟩
    | cons name names ih =>
      intro hnames v past
      obtain ⟨hkey, hnames⟩ := forall_mem_cons.mp hnames
      have hne : name ≠ [] := by
        rintro rfl
        exact lookup_eq_none.mp hnamed (mem_keys.mpr hkey)
      obtain ⟨o, ho⟩ := Option.isSome_iff_exists.mp (lookup_isSome.mpr (mem_keys.mpr hkey))
      obtain ⟨ids₁, hrun₁, hids₁⟩ := deviceFileWalk_run ho hne v past
      obtain ⟨ids, hrun, hids⟩ := ih hnames { v with deviceIDMap := ids₁ } past
      refine ⟨ids, (Proc.forM_cons_ok hrun₁).trans hrun, fun id => (hids id).trans ?_⟩
      rw [hids₁, or_assoc, exists_mem_cons_iff]
  refine Proc.Triple.of_run fun ⟨v, d, past⟩ ⟨hvd, hC⟩ => ?_
  obtain ⟨rfl, rfl⟩ := hvd
  obtain ⟨ids, hrun, hids⟩ := hloop d.files.keys (fun _ h => h) _ past
  exact ⟨(), _, hrun, ⟨rfl, ⟨rfl, rfl, rfl⟩, fun id => (hids id).trans (or_iff_right (Finset.notMem_empty id))⟩, hC⟩

theorem Collected.marked {v : DeviceSet} (h : Collected d₀ v) : Marked d₀ d₀.files.keys v := by
  intro f hf o ho hle
  unfold table at ho
  split at ho
  next hfile => exact (h o.id).mpr ⟨f, hf, by simp_all [isDeviceFile], o, ho, rfl, hle⟩
  · cases ho

/-- What was collected are the ids of the table. -/
theorem Marked.ids {v : DeviceSet} (h : Marked d₀ d₀.files.keys v) {f : Str} {o : Object}
    (ho : table d₀ f = some o) (hmax : o.id ≤ maxDeviceID) : o.id ∈ v.deviceIDMap :=
  h f (mem_keys_of_table ho) o ho hmax

/-- The first part of `initMetaData` collects the ids. -/
theorem initMetaData_safe {Q : Unit → DeviceSet → Disk → Prop} (hold : d₀.oldMetadata = none)
    (hnamed : d₀.files.lookup [] = none)
    (hrest : Safe C (fun v d => d = d₀ ∧ Fresh d₀.pool.transactionID v ∧ Collected d₀ v)
      processPendingTransaction Q fun _ _ => False) :
    Safe C (fun v d => v = DeviceSet.new ∧ d = d₀) initMetaData Q fun _ _ => False := by
  refine .bind (Q := fun _ v d => v = DeviceSet.new ∧ d = d₀) ?_ fun _ => ?_
  · refine Safe.look_bind_of_eq (a := none) (fun v d h => by rw [h.2]; exact hold) ?_
    exact .pure _ fun _ _ h => h
  refine Safe.look_bind_of_eq (a := d₀.pool.transactionID) (fun v d h => by rw [h.2]) ?_
  exact .bind (.remember fun v d h => ⟨by rw [h.1], h.2⟩) fun _ => .bind (constructDeviceIDMap_safe hnamed) fun _ => hrest

/-- The memory after the transaction file was read. -/
structure Loaded (d₀ : Disk) (v : DeviceSet) : Prop where
  devices : v.devices = ∅
  transactionID : v.transactionID = d₀.pool.transactionID
  marked : Marked d₀ d₀.files.keys v
  none : d₀.files.lookup transactionMetaFile = none → v.transaction.openTransactionID = d₀.pool.transactionID
  some : ∀ o, d₀.files.lookup transactionMetaFile = some o → v.transaction = o.transaction ⟨0, [], 0⟩

theorem loadTransactionMetaData_safe {E : DeviceSet → Disk → Prop} :
    Safe C (fun v d => d = d₀ ∧ Fresh d₀.pool.transactionID v ∧ Collected d₀ v)
      loadTransactionMetaData (fun _ v d => d = d₀ ∧ Loaded d₀ v ∧ Collected d₀ v) E := by
  refine Safe.look_bind_of_eq (a := d₀.files.lookup transactionMetaFile) (fun v d h => by rw [h.1]) ?_
  cases hfile : d₀.files.lookup transactionMetaFile with
  | none =>
    refine .remember fun v d h => ⟨h.1, ⟨h.2.1.devices, h.2.1.transactionID, h.2.2.marked, fun _ => ?_, fun o ho => ?_⟩, h.2.2⟩
    · exact h.2.1.transactionID
    · rw [hfile] at ho
      cases ho
  | some o =>
    refine .remember fun v d h => ⟨h.1, ⟨h.2.1.devices, h.2.1.transactionID, h.2.2.marked, fun hn => ?_, fun o' ho' => ?_⟩, h.2.2⟩
    · rw [hfile] at hn
      cases hn
    rw [hfile] at ho'
    cases ho'
    show o.transaction v.transaction = _
    rw [h.2.1.transaction]

/-- At rest there is nothing to undo. -/
theorem processPendingTransaction_rest (h₀ : Rest t d₀) :
    Safe C (fun v d => d = d₀ ∧ Fresh d₀.pool.transactionID v ∧ Collected d₀ v)
      processPendingTransaction (fun _ v d => (∃ ids, Ready t ids v d) ∧ Collected d₀ v) fun _ _ => False := by
  refine .bind loadTransactionMetaData_safe fun _ => .look_bind fun w => ?_
  refine .start fun v d hvd => ?_
  obtain ⟨⟨rfl, h, hids⟩, rfl⟩ := hvd
  have hready : Ready t d.pool.ids v d := by
    refine ⟨h₀, rfl, h.transactionID, fun id hid => ?_, fun k info hk => ?_⟩
    · obtain ⟨f, o, ho, rfl⟩ := (h₀.matched.exact id).mp hid
      rw [← h₀.table] at ho
      exact h.marked.ids ho (d.pool.bound _ hid)
    · rw [h.devices, lookup_empty] at hk
      cases hk
  have hdone : Safe C (fun v' d' => v' = v ∧ d' = d) (pure () : Act Unit)
      (fun _ v' d' => (∃ ids, Ready t ids v' d') ∧ Collected d v') fun _ _ => False := by
    refine .pure _ fun v' d' hvd => ?_
    obtain ⟨rfl, rfl⟩ := hvd
    exact ⟨⟨_, hready⟩, hids⟩
  split
  · exact hdone
  next hne =>
  split
  · exact hdone
  next hge =>
  -- The transaction id in the file would be greater than that of the pool.
  have hlt := UInt64.lt_of_le_of_ne (UInt64.not_lt.mp hge) hne
  rw [h.transactionID] at hlt
  cases hfile : d.files.lookup transactionMetaFile with
  | none =>
    rw [h.none hfile] at hlt
    exact (UInt64.lt_irrefl _ hlt).elim
  | some o =>
    rw [h.some o hfile] at hlt
    exact (h₀.closed o hfile hlt).elim

/-- The disk once the device of an open transaction is gone from the pool. -/
structure Dropped (d₀ : Disk) (id : Nat) (d : Disk) : Prop where
  ids : d.pool.ids = d₀.pool.ids.erase id
  transactionID : d.pool.transactionID = d₀.pool.transactionID
  files : d.files = d₀.files
  migrated : d.oldMetadata = d₀.oldMetadata

variable {hash : Str} {id : Nat} {d : Disk}

theorem Dropped.stillOpen (h : Dropped d₀ id d) (h₀ : Open t hash id d₀) : Open t hash id d := by
  obtain ⟨n, hfile, hn⟩ := h₀.pending
  refine ⟨h₀.plain, ⟨n, ?_, ?_⟩, ?_, ?_, ?_, ?_⟩
  · rw [h.files, hfile]
  · rw [h.transactionID]
    exact hn
  · rw [← h₀.table]
    unfold Devmapper.table
    rw [h.files]
  · rw [h.ids, Finset.erase_idem]
    exact h₀.matched
  · rw [h.migrated, h₀.migrated]
  · rw [h.files, h₀.named]

/-- A device that is already gone is no obstacle. -/
theorem dropDevice_safe (h₀ : Open t hash id d₀) (v : DeviceSet) :
    Safe (Settles t) (fun v' d' => v' = v ∧ d' = d₀) ((deletePoolDevice id).ignoreError : Act Unit)
      (fun _ v' d' => v' = v ∧ Dropped d₀ id d') fun _ _ => False := by
  refine Safe.ignoreError (Safe.look_bind_of_eq (a := d₀.pool) (fun v' d' h => by rw [h.2]) ?_)
  split
  · refine .write fun v' d' hvd _ => ?_
    obtain ⟨rfl, rfl⟩ := hvd
    have hdropped : Dropped d' id (d'.eraseDevice id) := ⟨rfl, rfl, rfl, rfl⟩
    exact ⟨.inr ⟨hash, id, hdropped.stillOpen h₀⟩, rfl, hdropped⟩
  next hid =>
    refine .fail _ fun v' d' hvd => ?_
    obtain ⟨rfl, rfl⟩ := hvd
    exact ⟨rfl, (Finset.erase_eq_of_notMem hid).symm, rfl, rfl, rfl⟩

section

variable (h : Dropped d₀ id d) (h₀ : Open t hash id d₀)
include h h₀

/-- The table without the device, as long as the transaction is open. -/
theorem Dropped.eraseFile : table (d.eraseFile (metadataFile hash)) = t ∧
      Open t hash id (d.eraseFile (metadataFile hash)) := by
  have hopen := h.stillOpen h₀
  obtain ⟨n, hfile, hn⟩ := hopen.pending
  have htable : table (d.eraseFile (metadataFile hash)) = t := by
    rw [table_eraseFile h₀.plain.file, hopen.table]
  refine ⟨htable, h₀.plain, ⟨n, ?_, hn⟩, ?_, hopen.matched, hopen.migrated, ?_⟩
  · rw [← hfile]
    exact lookup_erase_ne (ne_transactionMetaFile h₀.plain.file).symm
  · rw [table_eraseFile h₀.plain.file, update_idem, hopen.table]
  · rw [← hopen.named]
    exact lookup_erase_ne (metadataFile_ne_nil hash).symm

/-- The end of a rollback: with the transaction file gone, the disk is at rest. -/
theorem Dropped.rest :
    Rest t ((d.eraseFile (metadataFile hash)).eraseFile transactionMetaFile) := by
  obtain ⟨htable, hopen⟩ := h.eraseFile h₀
  refine ⟨(table_congr fun _ => lookup_erase_ne).trans htable, ?_, fun o ho => ?_, hopen.migrated, ?_⟩
  · show Matched t d.pool.ids
    rw [h.ids]
    exact h₀.matched
  · have hnone : ((d.eraseFile (metadataFile hash)).eraseFile transactionMetaFile).files.lookup
        transactionMetaFile = none := lookup_erase _ _
    rw [hnone] at ho
    cases ho
  · rw [← hopen.named]
    exact lookup_erase_ne (by decide)

end

/-- An open transaction is undone. -/
theorem processPendingTransaction_open (h₀ : Open t hash id d₀) : Safe (Settles t)
      (fun v d => d = d₀ ∧ Fresh d₀.pool.transactionID v ∧ Collected d₀ v)
      processPendingTransaction (fun _ v d => ∃ ids, Ready t ids v d) fun _ _ => False := by
  refine .bind loadTransactionMetaData_safe fun _ => .look_bind fun w => ?_
  refine .start fun v d hvd => ?_
  obtain ⟨⟨rfl, h, -⟩, rfl⟩ := hvd
  obtain ⟨n, hfile, hn⟩ := h₀.pending
  have htx : v.transaction = ⟨n, hash, id⟩ := h.some _ hfile
  have hne : v.transactionID ≠ v.transaction.openTransactionID := by
    rw [h.transactionID, htx]
    exact UInt64.ne_of_lt hn
  have hge : ¬ v.transaction.openTransactionID < v.transactionID := by
    rw [h.transactionID, htx]
    exact UInt64.lt_asymm hn
  rw [if_neg hne, if_neg hge]
  refine .bind (Q := fun _ v' d' => v' = v.markDeviceIDFree id ∧ ∃ d₁, Dropped d id d₁ ∧
    d' = (d₁.eraseFile (metadataFile hash)).eraseFile transactionMetaFile) ?_ fun _ =>
    Safe.remember fun v' d' hvd => ?_
  · refine Safe.look_bind_of_eq (a := v.transaction) (fun v' d' hvd => by rw [hvd.1]) ?_
    rw [htx]
    refine .bind (dropDevice_safe h₀ v) fun _ => ?_
    refine .bind (Q := fun _ v' d' => v' = v ∧ ∃ d₁, Dropped d id d₁ ∧
      d' = d₁.eraseFile (metadataFile hash)) (.write fun v' d' hvd _ => ?_) fun _ =>
      Safe.bind (Q := fun _ v' d' => v' = v.markDeviceIDFree id ∧ ∃ d₁, Dropped d id d₁ ∧
      d' = d₁.eraseFile (metadataFile hash)) (Safe.remember fun v' d' hvd => ⟨by rw [hvd.1], hvd.2⟩)
      fun _ => .write fun v' d' hvd _ => ?_
    · exact ⟨.inr ⟨hash, id, (hvd.2.eraseFile h₀).2⟩, hvd.1, d', hvd.2, rfl⟩
    · obtain ⟨hv', d₁, hdropped, rfl⟩ := hvd
      exact ⟨.inl (hdropped.rest h₀), hv', d₁, hdropped, rfl⟩
  · obtain ⟨rfl, d₁, hdropped, rfl⟩ := hvd
    refine ⟨d₁.pool.ids, hdropped.rest h₀, rfl, h.transactionID.trans hdropped.transactionID.symm,
      fun x hx => ?_, fun k info hk => ?_⟩
    · rw [hdropped.ids] at hx
      obtain ⟨f, o, ho, rfl⟩ := (h₀.matched.exact x).mp hx
      have hf : table d f = some o := by
        rw [← h₀.table, update_apply] at ho
        split at ho
        · cases ho
        · exact ho
      exact Finset.mem_erase.mpr ⟨Finset.ne_of_mem_erase hx,
        h.marked.ids hf (d.pool.bound _ (Finset.mem_of_mem_erase hx))⟩
    · have hdev : (v.markDeviceIDFree id).devices = ∅ := h.devices
      change (v.markDeviceIDFree id).devices.lookup k = some info at hk
      rw [hdev, lookup_empty] at hk
      cases hk

theorem initMetaData_settles :
    Safe (Settles t) (fun v d => v = DeviceSet.new ∧ Settles t d) initMetaData
      (fun _ v d => ∃ ids, Ready t ids v d) fun _ _ => False := by
  refine .start fun v d hvd => ?_
  obtain ⟨rfl, hrest | ⟨hash, id, hopen⟩⟩ := hvd
  · exact initMetaData_safe hrest.migrated hrest.named
      ((processPendingTransaction_rest hrest).mono (fun _ _ h => h) (fun _ _ _ h => h.1) fun _ _ h => h)
  · exact initMetaData_safe hopen.migrated hopen.named (processPendingTransaction_open hopen)

/-- The start of the driver brings the disk to rest, with the table that it settles to, and so it does when it
is stopped and tried again. -/
theorem start_safe :
    Safe (Settles t) (fun v d => v = DeviceSet.new ∧ Settles t d) start
      (fun _ v d => ∃ ids, Ready t ids v d) fun _ _ => False := by
  refine .bind initMetaData_settles fun _ => .look_bind fun file => ?_
  cases file with
  | none => exact .pure _ fun _ _ h => h.1
  | some o =>
    refine .remember fun v d h => ?_
    obtain ⟨⟨ids, hready⟩, -⟩ := h
    exact ⟨ids, hready.rest, hready.pool, hready.transactionID, hready.map, hready.cache⟩

end Start

/-! ## Runs -/

/-- The driver: in operation, or stopped by a crash. -/
inductive State where
  | up (v : DeviceSet) (d : Disk)
  | down (d : Disk)

/-- An operation, a crash after so many writes of an operation, a start, and a crash after so many writes of
the start. -/
inductive Event where
  | op (o : Op)
  | crash (o : Op) (n : Nat)
  | start
  | crashStart (n : Nat)
  deriving DecidableEq, Repr

/-- One event. Operations that return an error are not part of a run. -/
def step : State → Event → Option State
  | .up v d, .op o =>
    match o.run ⟨v, d, []⟩ with
    | (.ok _, s) => some (.up s.mem s.disk)
    | (.error _, _) => none
  | .up v d, .crash o n => (crashes o.run v d)[n]?.map .down
  | .down d, .start =>
    match start ⟨DeviceSet.new, d, []⟩ with
    | (.ok _, s) => some (.up s.mem s.disk)
    | (.error _, _) => none
  | .down d, .crashStart n => (crashes start DeviceSet.new d)[n]?.map .down
  | _, _ => none

/-- The tables of a run in which operations happen as a whole: one that a crash stopped has happened or not. -/
inductive Spec : Table → List Event → Table → Prop
  | nil (t : Table) : Spec t [] t
  | op {t t' t'' : Table} {o : Op} {evs : List Event} (h : Effect t o t') (hs : Spec t' evs t'') :
    Spec t (.op o :: evs) t''
  | crash {t t' t'' : Table} {o : Op} {n : Nat} {evs : List Event} (h : t' = t ∨ Effect t o t')
    (hs : Spec t' evs t'') : Spec t (.crash o n :: evs) t''
  | start {t t' : Table} {evs : List Event} (hs : Spec t evs t') : Spec t (.start :: evs) t'
  | crashStart {t t' : Table} {n : Nat} {evs : List Event} (hs : Spec t evs t') :
    Spec t (.crashStart n :: evs) t'

/-- The state has the table `t`, or comes to rest with it. -/
def Stands (t : Table) : State → Prop
  | .up v d => ∃ ids, Ready t ids v d
  | .down d => Settles t d

/-- An operation has plain hashes, and there is a transaction id for it. -/
def Allowed : State → Event → Prop
  | .up _ d, .op o => o.Plain ∧ Room d
  | .up _ d, .crash o _ => o.Plain ∧ Room d
  | _, _ => True

instance : ∀ σ ev, Decidable (Allowed σ ev)
  | .up _ d, .op o => inferInstanceAs (Decidable (o.Plain ∧ Room d))
  | .up _ d, .crash o _ => inferInstanceAs (Decidable (o.Plain ∧ Room d))
  | .up _ _, .start => inferInstanceAs (Decidable True)
  | .up _ _, .crashStart _ => inferInstanceAs (Decidable True)
  | .down _, _ => inferInstanceAs (Decidable True)

/-- One event is an event of the abstract run. -/
theorem step_spec {σ σ' : State} {ev : Event} {t : Table} (hs : Stands t σ) (ha : Allowed σ ev)
    (h : step σ ev = some σ') :
    ∃ t', Stands t' σ' ∧ ∀ evs t'', Spec t' evs t'' → Spec t (ev :: evs) t'' := by
  cases σ with
  | up v d =>
    obtain ⟨ids, hready⟩ := hs
    have hm : Matched t ids := hready.pool ▸ hready.rest.matched
    have hrest : ∀ o, Stopped (fun t' => t' = t ∨ Effect t o t') d := fun o => ⟨t, .inl rfl, .inl hready.rest⟩
    cases ev with
    | op o =>
      rw [step] at h
      split at h
      next u s hrun =>
        cases h
        obtain ⟨t', ids', heffect, hready'⟩ := ((op_safe hm o ha.1 ⟨v, d, []⟩
          ⟨⟨hready, ha.2⟩, hrest o, nofun⟩).1 u s hrun).1
        exact ⟨t', ⟨ids', hready'⟩, fun evs t'' => .op heffect⟩
      · cases h
    | crash o n =>
      obtain ⟨d', hd', rfl⟩ := Option.map_eq_some_iff.mp h
      obtain ⟨t', hgoal, hsettles⟩ := (op_safe hm o ha.1).crash ⟨hready, ha.2⟩ (hrest o) d' (mem_of_getElem? hd')
      exact ⟨t', hsettles, fun evs t'' => .crash hgoal⟩
    | start => cases h
    | crashStart n => cases h
  | down d =>
    cases ev with
    | op o => cases h
    | crash o n => cases h
    | start =>
      obtain ⟨u, s, hrun, hready⟩ := start_safe.returns (v := DeviceSet.new) ⟨rfl, hs⟩ hs
      rw [step, hrun] at h
      cases h
      exact ⟨t, hready, fun evs t'' => .start⟩
    | crashStart n =>
      obtain ⟨d', hd', rfl⟩ := Option.map_eq_some_iff.mp h
      have hsettles := start_safe.crash (v := DeviceSet.new) ⟨rfl, hs⟩ hs d' (mem_of_getElem? hd')
      exact ⟨t, hsettles, fun evs t'' => .crashStart⟩

/-- A run is a run of the tables. -/
theorem exec_spec {σ σ' : State} {evs : List Event} {t : Table} (hs : Stands t σ)
    (ha : Trace.Along step Allowed σ evs) (h : exec step σ evs = some σ') :
    ∃ t', Spec t evs t' ∧ Stands t' σ' := by
  induction evs generalizing σ t with
  | nil =>
    cases h
    exact ⟨t, .nil t, hs⟩
  | cons ev evs ih =>
    obtain ⟨τ, hst, h⟩ := exec_cons_iff.mp h
    rw [along_cons hst] at ha
    obtain ⟨t₁, hs₁, hspec⟩ := step_spec hs ha.1 hst
    obtain ⟨t', hrun, hs'⟩ := ih hs₁ ha.2 h
    exact ⟨t', hspec evs t' hrun, hs'⟩

/-! ## Two disks -/

/-- A disk with the base device, and a pool with the given transaction id. -/
def baseOnly (transactionID : UInt64) : Disk where
  pool := ⟨{1}, by decide, transactionID⟩
  files := (∅ : AList fun _ : Str => Object).insert "base".toList (DevInfo.marshal ⟨[], 1, 100, 0, true⟩)
  oldMetadata := none

theorem table_baseOnly (n : UInt64) (f : Str) : table (baseOnly n) f =
    if f = "base".toList then some (DevInfo.marshal ⟨[], 1, 100, 0, true⟩) else none := by
  by_cases hf : f = "base".toList
  · subst hf
    rfl
  rw [if_neg hf]
  unfold table
  split
  · exact (lookup_insert_ne hf).trans (lookup_empty f)
  · rfl

theorem rest_baseOnly (n : UInt64) : Rest (table (baseOnly n)) (baseOnly n) := by
  refine ⟨rfl, ⟨fun f g o p hf hg _ => ?_, fun id => ?_⟩, nofun, rfl, rfl⟩
  · rw [table_baseOnly] at hf hg
    split at hf
    · split at hg
      next h₁ h₂ => rw [h₁, h₂]
      · cases hg
    · cases hf
  · constructor
    · intro hid
      exact ⟨"base".toList, _, (table_baseOnly n _).trans (if_pos rfl), (Finset.mem_singleton.mp hid).symm⟩
    rintro ⟨f, o, ho, rfl⟩
    rw [table_baseOnly] at ho
    split at ho
    · cases ho
      exact Finset.mem_singleton.mpr rfl
    · cases ho

/-- The driver is in operation, and the pool has a device that no file speaks of. -/
def State.orphan (id : Nat) : State → Bool
  | .up _ d => decide (id ∈ d.pool.ids) && d.files.keys.all fun f => (table d f).map Object.id != some id
  | .down _ => false

end DockerEngine.Devmapper
