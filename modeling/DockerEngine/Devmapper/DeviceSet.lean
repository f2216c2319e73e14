import DockerEngine.Lib.Crash
import DockerEngine.Lib.Filepath

/-!
# The devices of the devicemapper driver

`devmapper.DeviceSet` has a thin device for each layer, and a file in the metadata directory for each device.
Making and deleting a device changes the pool and the directory in several steps. They are one transaction:
`openTransaction` writes down what is going to be changed, with the next transaction id, and `closeTransaction`
gives the pool this id. `initMetaData`, after a restart, undoes a transaction that was not closed.

The pool and the metadata directory survive a crash, and every step that changes one of them is one write. A
file is a JSON object. All files are read with the fields they have, so that the walk over the directory takes
the transaction file for one of a device, as in the source. The steps of the system do not fail by themselves;
where the pool refuses an id, the code goes the way it has for that. Activating and removing the block devices
on top of the pool, and discarding their blocks, does not touch what is modelled.
-/

namespace DockerEngine.Devmapper

open Filepath Crash Proc

/-- `MaxDeviceId`: 24 bits. -/
def maxDeviceID : Nat := 0xffffff

/-- `transactionMetaFile`. -/
def transactionMetaFile : Str := "transaction-metadata".toList

/-- `deviceSetMetaFile`. -/
def deviceSetMetaFile : Str := "deviceset-metadata".toList

/-! ## The metadata directory and the pool -/

/-- A JSON object of the metadata directory, by the fields that it has. -/
structure Object where
  deviceID : Option Nat
  size : Option UInt64
  transactionID : Option UInt64
  initialized : Option Bool
  openTransactionID : Option UInt64
  deviceHash : Option Str
  nextDeviceID : Option Nat
  deriving DecidableEq, Repr

/-- `DevInfo`. -/
structure DevInfo where
  hash : Str
  deviceID : Nat
  size : UInt64
  transactionID : UInt64
  initialized : Bool
  deriving DecidableEq, Repr

/-- `Transaction`. -/
structure Transaction where
  openTransactionID : UInt64
  deviceIDHash : Str
  deviceID : Nat
  deriving DecidableEq, Repr

def DevInfo.marshal (info : DevInfo) : Object :=
  ⟨some info.deviceID, some info.size, some info.transactionID, some info.initialized, none, none, none⟩

def Transaction.marshal (t : Transaction) : Object :=
  ⟨some t.deviceID, none, none, none, some t.openTransactionID, some t.deviceIDHash, none⟩

/-- The device of a file: fields that are missing keep their zero values. -/
def Object.devInfo (o : Object) (hash : Str) : DevInfo where
  hash := hash
  deviceID := o.deviceID.getD 0
  size := o.size.getD 0
  transactionID := o.transactionID.getD 0
  initialized := o.initialized.getD false

/-- A transaction after the file was read over it. -/
def Object.transaction (o : Object) (t : Transaction) : Transaction where
  openTransactionID := o.openTransactionID.getD t.openTransactionID
  deviceIDHash := o.deviceHash.getD t.deviceIDHash
  deviceID := o.deviceID.getD t.deviceID

/-- The thin pool: the ids of its devices, which have 24 bits, and its transaction id. -/
structure Pool where
  ids : Finset Nat
  bound : ∀ id ∈ ids, id ≤ maxDeviceID
  transactionID : UInt64

/-- What survives a crash: the pool, the files of the metadata directory, and the file of an old version that
`initMetaData` takes over. -/
structure Disk where
  pool : Pool
  files : AList fun _ : Str => Object
  oldMetadata : Option (List (Str × DevInfo))

/-- The name of `metadataFile` in the metadata directory. -/
def metadataFile (hash : Str) : Str := if hash = [] then "base".toList else hash

namespace Disk

def setFile (name : Str) (o : Object) (d : Disk) : Disk := { d with files := d.files.insert name o }

def eraseFile (name : Str) (d : Disk) : Disk := { d with files := d.files.erase name }

def addDevice (id : Nat) (h : id ≤ maxDeviceID) (d : Disk) : Disk :=
  { d with
    pool :=
      { d.pool with
        ids := insert id d.pool.ids
        bound := fun x hx => (Finset.mem_insert.mp hx).elim (fun e => e ▸ h) (d.pool.bound x) } }

def eraseDevice (id : Nat) (d : Disk) : Disk :=
  { d with
    pool :=
      { d.pool with
        ids := d.pool.ids.erase id
        bound := fun x hx => d.pool.bound x (Finset.mem_of_mem_erase hx) } }

def setTransactionID (t : UInt64) (d : Disk) : Disk := { d with pool := { d.pool with transactionID := t } }

end Disk

/-- `loadMetadata`. -/
def loadMetadata (d : Disk) (hash : Str) : Option DevInfo :=
  (d.files.lookup (metadataFile hash)).map fun o => o.devInfo hash

/-! ## The device set -/

/-- `DeviceSet`: the devices that were looked up, the transaction ids, and the ids that are in use. -/
structure DeviceSet where
  devices : AList fun _ : Str => DevInfo
  transactionID : UInt64
  transaction : Transaction
  nextDeviceID : Nat
  deviceIDMap : Finset Nat

/-- A device set before it is initialised. -/
def DeviceSet.new : DeviceSet := ⟨∅, 0, ⟨0, [], 0⟩, 0, ∅⟩

inductive Err where
  | unknownDevice (hash : Str)
  | deviceExists (hash : Str)
  | noFreeID
  /-- `ErrDeviceIdExists`. -/
  | deviceIDExists (id : Nat)
  | noDevice (id : Nat)
  | transactionID
  | badMetadata (hash : Str)
  deriving DecidableEq, Repr

/-- A program of the device set. -/
abbrev Act (α : Type) : Type := Prog DeviceSet Disk Err α

namespace DeviceSet

def cache (info : DevInfo) (v : DeviceSet) : DeviceSet :=
  { v with devices := v.devices.insert info.hash info }

def forget (hash : Str) (v : DeviceSet) : DeviceSet := { v with devices := v.devices.erase hash }

def markDeviceIDUsed (id : Nat) (v : DeviceSet) : DeviceSet :=
  { v with deviceIDMap := insert id v.deviceIDMap }

def markDeviceIDFree (id : Nat) (v : DeviceSet) : DeviceSet :=
  { v with deviceIDMap := v.deviceIDMap.erase id }

/-- `allocateTransactionId`, and what the transaction is about. The id has 64 bits. -/
def allocate (hash : Str) (id : Nat) (v : DeviceSet) : DeviceSet :=
  { v with transaction := ⟨v.transactionID + 1, hash, id⟩ }

end DeviceSet

section

variable (id : Nat) (hash : Str)

/-- `lookupDevice`. -/
def lookupDevice : Act DevInfo := do
  match ← look fun v _ => v.devices.lookup hash with
  | some info => pure info
  | none =>
    match ← look fun _ d => loadMetadata d hash with
    | none => fail (.unknownDevice hash)
    | some info =>
      remember (DeviceSet.cache info)
      pure info

/-- `incNextDeviceId`. -/
def incDeviceID : Nat := (id + 1) &&& maxDeviceID

/-- The loop of `getNextFreeDeviceId`. -/
def freeFrom (used : Finset Nat) : Nat → Nat → Option Nat
  | 0, _ => none
  | n + 1, id => if id ∈ used then freeFrom used n (incDeviceID id) else some id

/-- `getNextFreeDeviceId`. -/
def getNextFreeDeviceID : Act Nat := do
  match ← look fun v _ => freeFrom v.deviceIDMap (maxDeviceID + 1) (incDeviceID v.nextDeviceID) with
  | none =>
    remember fun v => { v with nextDeviceID := incDeviceID v.nextDeviceID }
    fail .noFreeID
  | some id =>
    remember fun v => DeviceSet.markDeviceIDUsed id { v with nextDeviceID := id }
    pure id

/-- `saveTransactionMetaData`. -/
def saveTransactionMetaData : Act Unit := do
  let t ← look fun v _ => v.transaction
  write (Disk.setFile transactionMetaFile t.marshal)

/-- `openTransaction`. -/
def openTransaction (id : Nat) : Act Unit := do
  remember (DeviceSet.allocate hash id)
  saveTransactionMetaData

/-- `refreshTransaction`. -/
def refreshTransaction : Act Unit := do
  remember fun v => { v with transaction := { v.transaction with deviceID := id } }
  saveTransactionMetaData

/-- `closeTransaction`. The pool checks that it has the old transaction id. -/
def closeTransaction : Act Unit := do
  let v ← look fun v _ => v
  let current ← look fun _ d => d.pool.transactionID
  if current = v.transactionID then
    write (Disk.setTransactionID v.transaction.openTransactionID)
    remember fun v => { v with transactionID := v.transaction.openTransactionID }
  else fail .transactionID

/-- `devicemapper.CreateSnapDevice`. -/
def createSnapDevice (baseID : Nat) : Act Unit := do
  let pool ← look fun _ d => d.pool
  if id ∈ pool.ids then fail (.deviceIDExists id)
  else if baseID ∉ pool.ids then fail (.noDevice baseID)
  else if h : id ≤ maxDeviceID then write (Disk.addDevice id h)
  else fail (.noDevice id)

/-- `devicemapper.DeleteDevice`. -/
def deletePoolDevice : Act Unit := do
  if id ∈ (← look fun _ d => d.pool).ids then write (Disk.eraseDevice id) else fail (.noDevice id)

/-- The loop of `createRegisterSnapDevice`: an id that the pool has already is passed over. It ends when there
are no more ids to try. -/
def createSnapLoop (baseID : Nat) : Nat → Nat → Act Nat
  | 0, _ => fail .noFreeID
  | n + 1, id => do
    match ← (createSnapDevice id baseID).result with
    | .ok _ => pure id
    | .error (.deviceIDExists _) =>
      let next ← getNextFreeDeviceID
      refreshTransaction next
      createSnapLoop baseID n next
    | .error e =>
      remember (DeviceSet.markDeviceIDFree id)
      fail e

/-- `registerDevice`. -/
def registerDevice (size transactionID : UInt64) : Act Unit := do
  remember (DeviceSet.cache ⟨hash, id, size, transactionID, false⟩)
  write (Disk.setFile (metadataFile hash) (DevInfo.marshal ⟨hash, id, size, transactionID, false⟩))

/-- `unregisterDevice`, with `removeMetadata`. -/
def unregisterDevice : Act Unit := do
  remember (DeviceSet.forget hash)
  write (Disk.eraseFile (metadataFile hash))

/-- `createRegisterSnapDevice`. -/
def createRegisterSnapDevice (base : DevInfo) : Act Unit := do
  let id ← getNextFreeDeviceID
  openTransaction hash id
  let id ← createSnapLoop base.deviceID (maxDeviceID + 1) id
  let openID ← look fun v _ => v.transaction.openTransactionID
  registerDevice id hash base.size openID
  closeTransaction.onError do
    unregisterDevice hash
    (deletePoolDevice id).ignoreError
    remember (DeviceSet.markDeviceIDFree id)

/-- `AddDevice`. -/
def addDevice (baseHash : Str) : Act Unit := do
  let base ← lookupDevice baseHash
  match ← (lookupDevice hash).result with
  | .ok _ => fail (.deviceExists hash)
  | .error _ => createRegisterSnapDevice hash base

/-- `deleteDevice`. -/
def deleteDeviceInfo (info : DevInfo) : Act Unit := do
  openTransaction info.hash info.deviceID
  deletePoolDevice info.deviceID
  unregisterDevice info.hash
  closeTransaction
  remember (DeviceSet.markDeviceIDFree info.deviceID)

/-- `DeleteDevice`. -/
def deleteDevice : Act Unit := do
  let info ← lookupDevice hash
  deleteDeviceInfo info

end

/-! ## After a restart -/

/-- `migrateOldMetaData`. -/
def migrateOldMetaData : Act Unit := do
  match ← look fun _ d => d.oldMetadata with
  | none => pure ()
  | some old =>
    old.forM fun entry => write (Disk.setFile (metadataFile entry.1) entry.2.marshal)
    write fun d => { d with oldMetadata := none }

/-- The files that `deviceFileWalkFunction` passes over. -/
def passedOver (name : Str) : Bool :=
  ".migrated".toList.isSuffixOf name || ".".toList.isPrefixOf name || name == deviceSetMetaFile

/-- `deviceFileWalkFunction`. -/
def deviceFileWalk (name : Str) : Act Unit :=
  if passedOver name then pure ()
  else do
    let hash := if name = "base".toList then [] else name
    match ← look fun _ d => loadMetadata d hash with
    | none => fail (.badMetadata hash)
    | some info =>
      if info.deviceID > maxDeviceID then pure ()
      else remember (DeviceSet.markDeviceIDUsed info.deviceID)

/-- `constructDeviceIdMap`. -/
def constructDeviceIDMap : Act Unit := do
  (← look fun _ d => d.files.keys).forM deviceFileWalk

/-- `loadTransactionMetaData`. -/
def loadTransactionMetaData : Act Unit := do
  match ← look fun _ d => d.files.lookup transactionMetaFile with
  | none =>
    remember fun v =>
      { v with transaction := { v.transaction with openTransactionID := v.transactionID } }
  | some o => remember fun v => { v with transaction := o.transaction v.transaction }

/-- `rollbackTransaction`. The device may be gone from the pool already. -/
def rollbackTransaction : Act Unit := do
  let t ← look fun v _ => v.transaction
  (deletePoolDevice t.deviceID).ignoreError
  write (Disk.eraseFile (metadataFile t.deviceIDHash))
  remember (DeviceSet.markDeviceIDFree t.deviceID)
  write (Disk.eraseFile transactionMetaFile)

/-- `processPendingTransaction`. -/
def processPendingTransaction : Act Unit := do
  loadTransactionMetaData
  let v ← look fun v _ => v
  if v.transactionID = v.transaction.openTransactionID then pure ()
  else if v.transaction.openTransactionID < v.transactionID then pure ()
  else
    rollbackTransaction
    remember fun v =>
      { v with transaction := { v.transaction with openTransactionID := v.transactionID } }

/-- `initMetaData`. -/
def initMetaData : Act Unit := do
  migrateOldMetaData
  let transactionID ← look fun _ d => d.pool.transactionID
  remember fun v => { v with transactionID := transactionID }
  constructDeviceIDMap
  processPendingTransaction

/-- `loadDeviceSetMetaData`, as it follows in `initDevmapper`. -/
def loadDeviceSetMetaData : Act Unit := do
  match ← look fun _ d => d.files.lookup deviceSetMetaFile with
  | none => pure ()
  | some o => remember fun v => { v with nextDeviceID := o.nextDeviceID.getD v.nextDeviceID }

/-- The start of the driver, as far as metadata is concerned. -/
def start : Act Unit := do
  initMetaData
  loadDeviceSetMetaData

end DockerEngine.Devmapper
