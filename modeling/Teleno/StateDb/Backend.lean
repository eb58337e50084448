import Teleno.Protocol

/-! # Object backends and their write batches

`Backend` covers both implementations of `abstract_backend`. A `map_backend` has no durable
part. A `rocksdb_backend` additionally owns the column families on disk; while a write batch is
open its writes are queued and reach the disk together, or not at all, when the batch ends.
Reads always see the latest write.
-/

namespace Teleno.StateDb

open Option

/-- Exceptions thrown by the state database. `outOfFuel` marks a loop that does not end. -/
inductive StateDbError where
  | illegalArgument
  | cannotDiscard
  | nodeFinalized
  | internalError
  | sessionInProgress
  | writeException
  | outOfFuel
deriving DecidableEq, Repr

/-- The metadata column family. -/
structure Metadata where
  size : ℕ
  revision : ℕ
  id : Multihash
  merkleRoot : Multihash
  header : BlockHeader
deriving DecidableEq

/-- One record of a `rocksdb::WriteBatch`. -/
inductive BatchOp where
  | put (key value : Bytes)
  | delete (key : Bytes)
  | putMetadata (metadata : Metadata)
deriving DecidableEq

/-- The column families on disk and the batch being collected, if any. -/
structure RocksDb where
  objects : ObjectMap
  metadata : Metadata
  writeBatch : Option (List BatchOp)
deriving DecidableEq

/-- Apply one batch record to the disk. -/
def RocksDb.apply (db : RocksDb) : BatchOp → RocksDb
  | .put key value => { db with objects := db.objects.insert key value }
  | .delete key => { db with objects := db.objects.erase key }
  | .putMetadata metadata => { db with metadata := metadata }

/-- A write goes to the open batch, or directly to the disk. -/
def RocksDb.write (db : RocksDb) (op : BatchOp) : RocksDb :=
  match db.writeBatch with
  | some batch => { db with writeBatch := some (batch ++ [op]) }
  | none => db.apply op

/-- `abstract_backend`: the object map, the cached metadata fields, and the disk of a
`rocksdb_backend` (`none` for a `map_backend`). -/
structure Backend where
  objects : ObjectMap := ∅
  revision : ℕ := 0
  id : Multihash := Multihash.zero
  merkleRoot : Multihash := []
  header : BlockHeader := {}
  rocksdb : Option RocksDb := none
deriving DecidableEq

namespace Backend

def get (b : Backend) (key : Bytes) : Option Bytes := b.objects[key]?

def put (b : Backend) (key value : Bytes) : Backend :=
  { b with
    objects := b.objects.insert key value
    rocksdb := b.rocksdb.map (·.write (.put key value)) }

def erase (b : Backend) (key : Bytes) : Backend :=
  { b with
    objects := b.objects.erase key
    rocksdb := b.rocksdb.map (·.write (.delete key)) }

def size (b : Backend) : ℕ := b.objects.size

def metadata (b : Backend) : Metadata := ⟨b.size, b.revision, b.id, b.merkleRoot, b.header⟩

/-- A `map_backend` stores no metadata. -/
def storeMetadata (b : Backend) : Backend :=
  { b with rocksdb := b.rocksdb.map (·.write (.putMetadata b.metadata)) }

/-- Opening a second batch is refused. -/
def startWriteBatch (b : Backend) : Except StateDbError Backend :=
  match b.rocksdb with
  | none => .ok b
  | some db =>
    match db.writeBatch with
    | some _ => .error .sessionInProgress
    | none => .ok { b with rocksdb := some { db with writeBatch := some [] } }

/-- Hand the batch to RocksDB, which accepts it as a whole or rejects it. -/
def endWriteBatch (b : Backend) (accepted : Bool) : Except StateDbError Backend :=
  match b.rocksdb with
  | none => .ok b
  | some db =>
    match db.writeBatch with
    | none => .ok b
    | some batch =>
      if accepted then .ok { b with rocksdb := some { batch.foldl RocksDb.apply db with writeBatch := none } }
      else .error .writeException

/-- No write batch is open. -/
def Idle (b : Backend) : Prop := ∀ db ∈ b.rocksdb, db.writeBatch = none

/-- The disk of an idle `rocksdb_backend` holds exactly the objects the backend answers with. -/
def Synced (b : Backend) : Prop :=
  ∀ db ∈ b.rocksdb, db.writeBatch = none ∧ db.objects = b.objects

/-- As `Synced`, and reopening the disk also finds the backend's metadata. -/
def Durable (b : Backend) : Prop :=
  ∀ db ∈ b.rocksdb, db.writeBatch = none ∧ db.objects = b.objects ∧ db.metadata = b.metadata

/-- A batch is open, and applying it brings the disk to the objects the backend answers with. -/
def Pending (b : Backend) : Prop :=
  ∀ db ∈ b.rocksdb, ∃ batch, db.writeBatch = some batch ∧
    (batch.foldl RocksDb.apply db).objects = b.objects

@[simp] theorem get_put (b : Backend) (key value k : Bytes) :
    (b.put key value).get k = if key = k then some value else b.get k := by
  simp [get, put, Std.ExtTreeMap.getElem?_insert]

@[simp] theorem get_erase (b : Backend) (key k : Bytes) :
    (b.erase key).get k = if key = k then none else b.get k := by
  simp [get, erase, Std.ExtTreeMap.getElem?_erase]

variable {b : Backend}

theorem Synced.idle (synced : b.Synced) : b.Idle := fun db stored => (synced db stored).1

/-- A `map_backend` has no disk to be out of step with. -/
theorem Synced.of_none (disk : b.rocksdb = none) : b.Synced := by
  intro db stored
  rw [disk] at stored
  contradiction

theorem Durable.synced (durable : b.Durable) : b.Synced :=
  fun db stored => ⟨(durable db stored).1, (durable db stored).2.1⟩

/-- Batch records never look at the batch being collected. -/
private theorem foldl_apply_writeBatch (ops : List BatchOp) (db : RocksDb) (batch : Option (List BatchOp)) :
    ops.foldl RocksDb.apply { db with writeBatch := batch } =
      { ops.foldl RocksDb.apply db with writeBatch := batch } := by
  induction ops generalizing db with
  | nil => rfl
  | cons op rest ih =>
    rw [List.foldl_cons, List.foldl_cons, ← ih]
    cases op <;> rfl

/-- A queued write is the last record the batch applies. -/
private theorem write_pending {db : RocksDb} {batch : List BatchOp} (opened : db.writeBatch = some batch)
    (op : BatchOp) : ∃ batch', (db.write op).writeBatch = some batch' ∧
      (batch'.foldl RocksDb.apply (db.write op)).objects =
        ((batch.foldl RocksDb.apply db).apply op).objects ∧
      (batch'.foldl RocksDb.apply (db.write op)).metadata =
        ((batch.foldl RocksDb.apply db).apply op).metadata := by
  refine ⟨batch ++ [op], ?_, ?_, ?_⟩ <;>
    cases op <;>
    simp [RocksDb.write, opened, foldl_apply_writeBatch, RocksDb.apply]

theorem Pending.put (pending : b.Pending) (key value : Bytes) : (b.put key value).Pending := by
  intro db stored
  obtain ⟨old, found, rfl⟩ := map_eq_some_iff.mp stored
  obtain ⟨batch, opened, current⟩ := pending old found
  obtain ⟨batch', opened', objects, -⟩ := write_pending opened (.put key value)
  refine ⟨batch', opened', objects.trans ?_⟩
  simp [RocksDb.apply, current, Backend.put]

theorem Pending.erase (pending : b.Pending) (key : Bytes) : (b.erase key).Pending := by
  intro db stored
  obtain ⟨old, found, rfl⟩ := map_eq_some_iff.mp stored
  obtain ⟨batch, opened, current⟩ := pending old found
  obtain ⟨batch', opened', objects, -⟩ := write_pending opened (.delete key)
  refine ⟨batch', opened', objects.trans ?_⟩
  simp [RocksDb.apply, current, Backend.erase]

/-- An idle backend opens a batch and answers as before. -/
theorem startWriteBatch_of_idle (idle : b.Idle) :
    ∃ opened, b.startWriteBatch = .ok opened ∧ opened.objects = b.objects ∧
      (opened.rocksdb = none ↔ b.rocksdb = none) ∧
      (∀ db ∈ opened.rocksdb, db.writeBatch ≠ none) ∧ (b.Synced → opened.Pending) := by
  cases disk : b.rocksdb with
  | none =>
    refine ⟨b, by simp [startWriteBatch, disk], rfl, by simp [disk], ?_, ?_⟩
    · intro db stored
      rw [disk] at stored
      contradiction
    · intro _ db stored
      rw [disk] at stored
      contradiction
  | some db =>
    have noBatch := idle db disk
    refine ⟨{ b with rocksdb := some { db with writeBatch := some [] } },
      by simp [startWriteBatch, disk, noBatch], rfl, by simp, ?_, ?_⟩
    · intro db' stored
      obtain rfl := some.inj stored
      exact some_ne_none _
    · intro synced db' stored
      obtain rfl := some.inj stored
      exact ⟨[], rfl, (synced db disk).2⟩

/-- Storing the metadata and ending the batch leaves a durable backend with the same answers. -/
theorem endWriteBatch_of_accepted {accepted : Bool} (accepts : accepted = true ∨ b.rocksdb = none) :
    ∃ ended, b.storeMetadata.endWriteBatch accepted = .ok ended ∧ ended.objects = b.objects ∧
      ended.revision = b.revision ∧ ended.id = b.id ∧ ended.merkleRoot = b.merkleRoot ∧
      ended.header = b.header ∧ (ended.rocksdb = none ↔ b.rocksdb = none) ∧
      (b.Pending → ended.Durable) := by
  cases disk : b.rocksdb with
  | none =>
    refine ⟨b, ?_, rfl, rfl, rfl, rfl, rfl, by simp [disk], ?_⟩
    · simp only [storeMetadata, endWriteBatch, disk, map_none]
      rw [← disk]
    · intro _ db stored
      rw [disk] at stored
      contradiction
  | some db =>
    obtain rfl : accepted = true := accepts.resolve_right (by simp [disk])
    cases opened : (db.write (.putMetadata b.metadata)).writeBatch with
    | none =>
      refine ⟨b.storeMetadata, ?_, rfl, rfl, rfl, rfl, rfl, by simp [storeMetadata, disk], ?_⟩
      · simp [storeMetadata, endWriteBatch, disk, opened]
      · intro pending
        obtain ⟨batch, began, -⟩ := pending db disk
        obtain ⟨batch', found, -⟩ := write_pending began (.putMetadata b.metadata)
        rw [opened] at found
        contradiction
    | some batch =>
      refine ⟨{ b with rocksdb := some { batch.foldl RocksDb.apply
          (db.write (.putMetadata b.metadata)) with writeBatch := none } },
        ?_, rfl, rfl, rfl, rfl, rfl, by simp, ?_⟩
      · simp [storeMetadata, endWriteBatch, disk, opened]
      · intro pending db' stored
        obtain rfl := some.inj stored
        obtain ⟨batch₀, began, current⟩ := pending db disk
        obtain ⟨batch', found, objects, metadata⟩ := write_pending began (.putMetadata b.metadata)
        obtain rfl : batch = batch' := some.inj (opened.symm.trans found)
        exact ⟨rfl, objects.trans current, metadata⟩

/-- RocksDB can only reject a batch that is open. -/
theorem endWriteBatch_of_rejected (disk : b.rocksdb ≠ none) (opened : ∀ db ∈ b.rocksdb, db.writeBatch ≠ none) :
    b.storeMetadata.endWriteBatch false = .error .writeException := by
  obtain ⟨db, stored⟩ := ne_none_iff_exists'.mp disk
  obtain ⟨batch, began⟩ := ne_none_iff_exists'.mp (opened db stored)
  obtain ⟨batch', found, -⟩ := write_pending began (.putMetadata b.metadata)
  simp [storeMetadata, endWriteBatch, stored, found]

end Backend

end Teleno.StateDb
