import Teleno.Library.Disk
import Teleno.Library.Interruption
import Teleno.Protocol

/-! # The migration of the chain database

A legacy chain database is a directory of its own with the column families `objects` and `metadata`. Migration copies
both into column families of the node's database, moves the directory aside and records in the storage metadata what
it did; rollback moves the directory back. Every operation that can fail is a step with a name.
-/

namespace Teleno.Storage

open Library

/-- The keys of the column family `storage_metadata`. -/
inductive MetadataKey where
  | chainStorage
  | version
  | createdAt
  | network
  | createdBy
  | basedir
  | sourcePath
  | backupPath
  | objectsCount
  | objectsSha256
  | metadataCount
  | metadataSha256
  | completedAt
  | rollbackStartedAt
  | rollbackRestoredPath
  | rollbackBackupPath
  | rollbackCompletedAt
deriving DecidableEq

def MetadataKey.name : MetadataKey → String
  | chainStorage => "layout.chain_storage"
  | version => "layout.version"
  | createdAt => "layout.created_at"
  | network => "layout.network"
  | createdBy => "layout.created_by"
  | basedir => "layout.basedir"
  | sourcePath => "migration.source_path"
  | backupPath => "migration.backup_path"
  | objectsCount => "migration.objects.count"
  | objectsSha256 => "migration.objects.sha256"
  | metadataCount => "migration.metadata.count"
  | metadataSha256 => "migration.metadata.sha256"
  | completedAt => "migration.completed_at"
  | rollbackStartedAt => "migration.rollback_started_at"
  | rollbackRestoredPath => "migration.rollback_restored_path"
  | rollbackBackupPath => "migration.rollback_backup_path"
  | rollbackCompletedAt => "migration.rollback_completed_at"

/-- The column families of the node's database, without `storage_metadata`. -/
inductive ColumnFamily where
  | defaultState
  | blocks
  | blockMeta
  | contractMeta
  | transactionIndex
  | accountHistory
  | chainState
  | chainMetadata
deriving DecidableEq

/-- The column families of a legacy chain database. -/
structure LegacyDb where
  objects : ObjectMap
  metadata : ObjectMap

/-- What lies at a path: a chain database, or something that cannot be opened as one. -/
inductive Entry where
  | database (legacy : LegacyDb)
  | other

def Entry.database? : Entry → Option LegacyDb
  | database legacy => some legacy
  | other => none

/-- The node's database and the directories beside it. -/
structure NodeStorage where
  metadata : Disk MetadataKey String
  families : ColumnFamily → ObjectMap
  directories : Disk String Entry

namespace NodeStorage

/-- A missing key reads as the empty string. -/
def value (storage : NodeStorage) (key : MetadataKey) : String := (storage.metadata key).getD ""

def setMetadata (key : MetadataKey) (value : String) (storage : NodeStorage) : NodeStorage :=
  { storage with metadata := storage.metadata.put key value }

def setFamily (family : ColumnFamily) (records : ObjectMap) (storage : NodeStorage) : NodeStorage :=
  { storage with families := Function.update storage.families family records }

def rename (source destination : String) (storage : NodeStorage) : NodeStorage :=
  { storage with directories := storage.directories.rename source destination }

end NodeStorage

abbrev Migrating := EStateM String NodeStorage

/-- One operation: it takes effect at once, or reports an error and changes nothing. -/
def perform (fails : Bool) (message : String) (action : NodeStorage → NodeStorage) : Migrating Unit :=
  if fails then throw message else modify action

/-- The two column families that are copied. -/
inductive Part where
  | objects
  | metadata
deriving DecidableEq

namespace Part

def name : Part → String
  | objects => "objects"
  | metadata => "metadata"

def source (legacy : LegacyDb) : Part → ObjectMap
  | objects => legacy.objects
  | metadata => legacy.metadata

def target : Part → ColumnFamily
  | objects => .chainState
  | metadata => .chainMetadata

end Part

/-- The operations of a migration. Records and batches are counted by the loop that handles them; a pass that only
reads fails as a whole. -/
inductive MigrationStep where
  | readLayout
  | confirmLayout
  | findSource
  | findBackup
  | markInProgress
  | write (key : MetadataKey)
  | openLegacy
  | hashSource (part : Part)
  | readCleared (part : Part) (position : ℕ)
  | clearBatch (part : Part) (position : ℕ)
  | readCopied (part : Part) (position : ℕ)
  | copyBatch (part : Part) (position : ℕ)
  | flush (part : Part)
  | hashTarget (part : Part)
  | verify (part : Part)
  | rename
  | markUnified
  | restoreLayout
deriving DecidableEq

/-- The operations of a rollback. -/
inductive RollbackStep where
  | readLayout
  | readBackupPath
  | findBackup
  | findRestored
  | markInProgress
  | write (key : MetadataKey)
  | createParent
  | rename
  | markLegacy
  | restoreLayout
deriving DecidableEq

/-- The operations on the storage metadata when the database is opened. -/
inductive OpenStep where
  | read (key : MetadataKey)
  | write (key : MetadataKey)
  | findCurrent
deriving DecidableEq

def readMetadata (fails : Bool) (key : MetadataKey) : Migrating String := do
  perform fails ("failed to read storage metadata " ++ key.name) id
  pure ((← get).value key)

def writeMetadata (fails : Bool) (key : MetadataKey) (value : String) : Migrating Unit :=
  perform fails ("failed to write storage metadata " ++ key.name) (·.setMetadata key value)

/-- `std::filesystem::exists`. -/
def pathExists (fails : Bool) (path : String) : Migrating Bool := do
  perform fails "filesystem error" id
  pure ((← get).directories path).isSome

/-- `operator/` of paths, for a relative name. -/
def joinPath (directory name : String) : String :=
  if directory = "" ∨ directory.endsWith "/" then directory ++ name else directory ++ "/" ++ name

def chainDirectory (basedir : String) : String := joinPath basedir "chain"

def sourcePath (basedir : String) : String := joinPath (chainDirectory basedir) "blockchain"

def backupPath (basedir timestamp : String) : String :=
  joinPath (chainDirectory basedir) ("blockchain.legacy-pre-unified-" ++ timestamp)

section Batches

/-- One entry of a `rocksdb::WriteBatch`. -/
inductive Write where
  | delete (key : Bytes)
  | put (key value : Bytes)

def Write.apply (records : ObjectMap) : Write → ObjectMap
  | delete key => records.erase key
  | put key value => records.insert key value

def Write.bytes : Write → UInt64
  | delete key => .ofNat key.length
  | put key value => .ofNat (key.length + value.length)

def applyBatch (batch : List Write) (records : ObjectMap) : ObjectMap := batch.foldl Write.apply records

def maxBatchRecords : ℕ := 10000

def maxBatchBytes : UInt64 := 64 * 1024 * 1024

def batchBytes (batch : List Write) : UInt64 := batch.foldl (fun total write => total + write.bytes) 0

def writeBatchChecked (fails : Bool) (family : ColumnFamily) (batch : List Write) : Migrating Unit :=
  if batch.isEmpty then pure ()
  else perform fails "failed to write migration batch" fun storage =>
    storage.setFamily family (applyBatch batch (storage.families family))

/-- A loop over the records of a column family that collects writes and sends them when the batch is full. An
iterator that fails ends the loop, and what has been collected is not sent. -/
def writeRecords (reads writes : ℕ → Bool) (message : String) (full : List Write → Bool) (family : ColumnFamily) :
    ℕ → List Write → List Write → Migrating Unit
  | position, batch, [] => do
    perform (reads position) message id
    writeBatchChecked (writes position) family batch
  | position, batch, write :: rest => do
    perform (reads position) message id
    if full (batch ++ [write]) then do
      writeBatchChecked (writes position) family (batch ++ [write])
      writeRecords reads writes message full family (position + 1) [] rest
    else writeRecords reads writes message full family (position + 1) (batch ++ [write]) rest

def clearColumnFamily (fails : MigrationStep → Bool) (part : Part) : Migrating Unit := do
  let storage ← get
  writeRecords (fun position => fails (.readCleared part position)) (fun position => fails (.clearBatch part position))
    "failed to clear migration target" (fun batch => maxBatchRecords ≤ batch.length) part.target 0 []
    ((storage.families part.target).toList.map fun record => .delete record.1)

def copyColumnFamily (fails : MigrationStep → Bool) (part : Part) (source : ObjectMap) : Migrating Unit := do
  clearColumnFamily fails part
  writeRecords (fun position => fails (.readCopied part position)) (fun position => fails (.copyBatch part position))
    "failed to copy migration source"
    (fun batch => maxBatchRecords ≤ batch.length || maxBatchBytes ≤ batchBytes batch) part.target 0 []
    (source.toList.map fun record => .put record.1 record.2)
  perform (fails (.flush part)) "failed to flush migration target" id

end Batches

section Hash

structure MigratedColumnFamily where
  name : String
  recordCount : UInt64 := 0
  byteCount : UInt64 := 0
  sourceHash : String := ""
  targetHash : String := ""

/-- `update_uint64`: the eight bytes of a length, the lowest first. -/
def lengthBytes (length : UInt64) : Bytes := (List.range 8).map fun i => (length >>> .ofNat (i * 8)).toUInt8

/-- What the hasher is fed for one record. -/
def recordBytes (record : Bytes × Bytes) : Bytes :=
  lengthBytes (.ofNat record.1.length) ++ record.1 ++ (lengthBytes (.ofNat record.2.length) ++ record.2)

def MigratedColumnFamily.count (family : MigratedColumnFamily) (record : Bytes × Bytes) : MigratedColumnFamily :=
  { family with
    recordCount := family.recordCount + 1
    byteCount := family.byteCount + .ofNat (record.1.length + record.2.length) }

/-- The counts and the hash of a column family; `sha` gives the SHA-256 digest in hexadecimal. -/
def summary (sha : Bytes → String) (name : String) (records : ObjectMap) : MigratedColumnFamily :=
  let digest := sha (records.toList.flatMap recordBytes)
  { records.toList.foldl MigratedColumnFamily.count { name := name } with sourceHash := digest, targetHash := digest }

def hashColumnFamily (fails : Bool) (sha : Bytes → String) (name : String) (records : ObjectMap) :
    Migrating MigratedColumnFamily := do
  perform fails ("failed to iterate " ++ name) id
  pure (summary sha name records)

def verifyCopy (fails : Bool) (source target : MigratedColumnFamily) : Migrating Unit := do
  perform fails ("migration verification failed for " ++ source.name) id
  Exec.require (source.recordCount = target.recordCount ∧ source.byteCount = target.byteCount ∧
    source.sourceHash = target.sourceHash) ("migration verification failed for " ++ source.name)

end Hash

/-- `open_legacy_chain_db`, which opens the database for reading only. -/
def openLegacyChainDb (fails : Bool) (path : String) : Migrating LegacyDb := do
  perform fails ("failed to open legacy chain DB read-only at " ++ path) id
  let storage ← get
  ((storage.directories path).bind Entry.database?).elim
    (throw ("failed to open legacy chain DB read-only at " ++ path)) pure

/-- The handler writes the layout, whatever comes of it, and throws again. -/
def giveUp {α : Type} (fails : Bool) (layout message : String) : Migrating α := do
  tryCatch (writeMetadata fails .chainStorage layout) fun _ => pure ()
  throw message

/-- A part of the guarded region, with the layout that the handler writes if it fails there. -/
def guarded {α : Type} (fails : Bool) (layout : String) (body : Migrating α) : Migrating α :=
  tryCatch body (giveUp fails layout)

section Migrate

structure ChainMigrationResult where
  sourcePath : String
  backupPath : String
  objects : MigratedColumnFamily
  metadata : MigratedColumnFamily

/-- One call: the two times it reads, and what happens to each operation. -/
structure MigrationCall where
  startedAt : String
  completedAt : String
  fails : MigrationStep → Bool := fun _ => false

/-- The guarded region up to the point where `renamed_legacy_db` is set. -/
def moveRecords (sha : Bytes → String) (fails : MigrationStep → Bool) (source backup : String) :
    Migrating ChainMigrationResult := do
  let legacy ← openLegacyChainDb (fails .openLegacy) source
  let sourceObjects ← hashColumnFamily (fails (.hashSource .objects)) sha "objects" legacy.objects
  let sourceMetadata ← hashColumnFamily (fails (.hashSource .metadata)) sha "metadata" legacy.metadata
  copyColumnFamily fails .objects legacy.objects
  copyColumnFamily fails .metadata legacy.metadata
  let copied ← get
  let targetObjects ← hashColumnFamily (fails (.hashTarget .objects)) sha "objects" (copied.families .chainState)
  let targetMetadata ←
    hashColumnFamily (fails (.hashTarget .metadata)) sha "metadata" (copied.families .chainMetadata)
  verifyCopy (fails (.verify .objects)) sourceObjects targetObjects
  verifyCopy (fails (.verify .metadata)) sourceMetadata targetMetadata
  perform (fails .rename) "filesystem error" (·.rename source backup)
  pure
    { sourcePath := source
      backupPath := backup
      objects := { sourceObjects with targetHash := targetObjects.sourceHash }
      metadata := { sourceMetadata with targetHash := targetMetadata.sourceHash } }

/-- The guarded region after that point. -/
def recordMigration (call : MigrationCall) (result : ChainMigrationResult) : Migrating Unit := do
  writeMetadata (call.fails .markUnified) .chainStorage "unified"
  writeMetadata (call.fails (.write .backupPath)) .backupPath result.backupPath
  writeMetadata (call.fails (.write .objectsCount)) .objectsCount (toString result.objects.recordCount)
  writeMetadata (call.fails (.write .objectsSha256)) .objectsSha256 result.objects.sourceHash
  writeMetadata (call.fails (.write .metadataCount)) .metadataCount (toString result.metadata.recordCount)
  writeMetadata (call.fails (.write .metadataSha256)) .metadataSha256 result.metadata.sourceHash
  writeMetadata (call.fails (.write .completedAt)) .completedAt call.completedAt

def migrateLegacyChainDbToUnified (sha : Bytes → String) (basedir : String) (call : MigrationCall) :
    Migrating ChainMigrationResult := do
  let layout ← readMetadata (call.fails .readLayout) .chainStorage
  Exec.require (layout ≠ "unified") "chain storage is already unified"
  let layout ← readMetadata (call.fails .confirmLayout) .chainStorage
  Exec.require (layout = "legacy") "chain storage must be legacy before migration"
  let source := sourcePath basedir
  let found ← pathExists (call.fails .findSource) source
  Exec.require found ("legacy chain DB does not exist: " ++ source)
  let backup := backupPath basedir call.startedAt
  let taken ← pathExists (call.fails .findBackup) backup
  Exec.require (!taken) ("migration backup path already exists: " ++ backup)
  writeMetadata (call.fails .markInProgress) .chainStorage "migration-in-progress"
  writeMetadata (call.fails (.write .sourcePath)) .sourcePath source
  let result ← guarded (call.fails .restoreLayout) "legacy" (moveRecords sha call.fails source backup)
  guarded (call.fails .restoreLayout) "unified" (recordMigration call result)
  pure result

end Migrate

section Rollback

structure ChainMigrationRollbackResult where
  restoredPath : String
  backupPath : String

structure RollbackCall where
  startedAt : String
  completedAt : String
  fails : RollbackStep → Bool := fun _ => false

def rollbackUnifiedChainDbMigration (basedir : String) (call : RollbackCall) :
    Migrating ChainMigrationRollbackResult := do
  let layout ← readMetadata (call.fails .readLayout) .chainStorage
  Exec.require (layout = "unified") "chain storage must be unified before rollback"
  let restored := sourcePath basedir
  let backup ← readMetadata (call.fails .readBackupPath) .backupPath
  Exec.require (backup ≠ "")
    "migration.backup_path metadata is missing; cannot determine rollback source"
  let found ← pathExists (call.fails .findBackup) backup
  Exec.require found ("migration backup path does not exist: " ++ backup)
  let taken ← pathExists (call.fails .findRestored) restored
  Exec.require (!taken) ("legacy chain DB already exists; refusing to overwrite: " ++ restored)
  writeMetadata (call.fails .markInProgress) .chainStorage "migration-in-progress"
  writeMetadata (call.fails (.write .rollbackStartedAt)) .rollbackStartedAt call.startedAt
  guarded (call.fails .restoreLayout) "unified" do
    perform (call.fails .createParent) "filesystem error" id
    perform (call.fails .rename) "filesystem error" (·.rename backup restored)
  guarded (call.fails .restoreLayout) "legacy" do
    writeMetadata (call.fails .markLegacy) .chainStorage "legacy"
    writeMetadata (call.fails (.write .rollbackRestoredPath)) .rollbackRestoredPath restored
    writeMetadata (call.fails (.write .rollbackBackupPath)) .rollbackBackupPath backup
    writeMetadata (call.fails (.write .rollbackCompletedAt)) .rollbackCompletedAt call.completedAt
  pure { restoredPath := restored, backupPath := backup }

end Rollback

section Open

/-- One opening of the database: the time, the version text, and what happens to each operation. -/
structure OpenCall where
  now : String
  createdBy : String
  fails : OpenStep → Bool := fun _ => false

/-- Whether `CURRENT` is found in the legacy directory; an error counts as a miss. -/
def hasLegacyChainDb (fails : Bool) (basedir : String) (storage : NodeStorage) : Bool :=
  !fails && (storage.directories (sourcePath basedir)).any fun entry => entry.database?.isSome

def writeIfEmpty (fails : OpenStep → Bool) (key : MetadataKey) (value : String) : Migrating Unit := do
  let current ← readMetadata (fails (.read key)) key
  if current = "" then writeMetadata (fails (.write key)) key value else pure ()

def settleLayout (fails : OpenStep → Bool) (chainStorage : String) (hasLegacy : Bool) : Migrating Unit :=
  if chainStorage = "" then
    writeMetadata (fails (.write .chainStorage)) .chainStorage (if hasLegacy then "legacy" else "unified")
  else if chainStorage = "legacy" ∧ !hasLegacy then
    writeMetadata (fails (.write .chainStorage)) .chainStorage "unified"
  else pure ()

def initializeStorageMetadata (basedir : String) (call : OpenCall) : Migrating Unit := do
  let chainStorage ← readMetadata (call.fails (.read .chainStorage)) .chainStorage
  let storage ← get
  let hasLegacy := hasLegacyChainDb (call.fails .findCurrent) basedir storage
  Exec.require (chainStorage ≠ "migration-in-progress")
    "storage migration is marked in progress; refusing to start until migration is repaired or rolled back"
  Exec.require (chainStorage = "" ∨ chainStorage = "legacy" ∨ chainStorage = "unified")
    ("unknown chain storage layout: " ++ chainStorage)
  writeIfEmpty call.fails .version "1"
  settleLayout call.fails chainStorage hasLegacy
  writeIfEmpty call.fails .createdAt call.now
  writeIfEmpty call.fails .network "unknown"
  writeMetadata (call.fails (.write .createdBy)) .createdBy call.createdBy
  writeMetadata (call.fails (.write .basedir)) .basedir basedir

end Open

end Teleno.Storage
