import Std.Data.ExtTreeMap.Lemmas
import Std.Data.ExtTreeSet.Lemmas
import Mathlib.Data.String.Basic
import Teleno.Library.Interruption
import Teleno.Protocol

/-! # The local backup repository

`store_checkpoint_snapshot` copies the files of a checkpoint into objects named by their hashes, writes the metadata
of the snapshot into a `.partial` directory, renames it, points `latest.json` at it and prunes the oldest snapshots.
`delete_local_backup_snapshot` removes one snapshot with the objects that no other one names. Each file system
operation may fail or be the first one that the process did not do; a `remove_all` may be cut half way.
-/

namespace Teleno.Backup

open Library

/-- SHA-256 of a file, in hexadecimal. -/
structure Sha256 where
  file : Bytes → String

/-- A hash that tells contents of different lengths apart. -/
def sampleSha : Sha256 where
  file content := String.ofList (List.replicate 64 (Char.ofNat (48 + content.length % 10)))

structure SnapshotFileEntry where
  path : String
  sha256 : String
  sizeBytes : ℕ
  runtimeFile : Bool
deriving DecidableEq

/-- The numbers that `manifest.json` records. -/
structure SnapshotManifest where
  backupId : String
  fileCount : ℕ
  objectCount : ℕ
  totalBytes : ℕ
  dbBytes : ℕ
  runtimeBytes : ℕ
  uniqueObjectBytes : ℕ
deriving DecidableEq

/-- The files of a snapshot directory. -/
inductive MetadataFile where
  | files
  | manifest
  | complete
deriving DecidableEq

/-- What a snapshot directory holds. -/
structure SnapshotDir where
  files : Option (List SnapshotFileEntry) := none
  manifest : Option SnapshotManifest := none
  complete : Bool := false
deriving DecidableEq

namespace SnapshotDir

/-- The entries of `files.json`; a directory without one has none. -/
def entries (dir : SnapshotDir) : List SnapshotFileEntry := dir.files.getD []

def without (gone : List MetadataFile) (dir : SnapshotDir) : SnapshotDir where
  files := if .files ∈ gone then none else dir.files
  manifest := if .manifest ∈ gone then none else dir.manifest
  complete := if .complete ∈ gone then false else dir.complete

def fileCount (dir : SnapshotDir) : ℕ := dir.files.toList.length + dir.manifest.toList.length + dir.complete.toNat

end SnapshotDir

/-- The directories under `snapshots`, the files under `objects/sha256`, and the backup that `latest.json` names. -/
structure LocalSnapshotRepository where
  snapshots : Std.ExtTreeMap String SnapshotDir := ∅
  objects : Std.ExtTreeMap String Bytes := ∅
  latest : Option String := none

namespace LocalSnapshotRepository

variable (repository : LocalSnapshotRepository)

def setSnapshot (name : String) (dir : SnapshotDir) : LocalSnapshotRepository :=
  { repository with snapshots := repository.snapshots.insert name dir }

def eraseSnapshot (name : String) : LocalSnapshotRepository :=
  { repository with snapshots := repository.snapshots.erase name }

def changeSnapshot (name : String) (f : SnapshotDir → SnapshotDir) : LocalSnapshotRepository :=
  { repository with snapshots := repository.snapshots.alter name (Option.map f) }

/-- Rename a directory to a name that is free. -/
def renameSnapshot (source destination : String) : LocalSnapshotRepository :=
  { repository with
    snapshots := (repository.snapshots.alter destination fun _ => repository.snapshots[source]?).erase source }

def putObject (name : String) (content : Bytes) : LocalSnapshotRepository :=
  { repository with objects := repository.objects.insert name content }

def removeObject (name : String) : LocalSnapshotRepository :=
  { repository with objects := repository.objects.erase name }

def setLatest (latest : Option String) : LocalSnapshotRepository :=
  { repository with latest := latest }

end LocalSnapshotRepository

/-- The file system operations on the repository, apart from `remove_all`. -/
inductive RepositoryStep where
  | createPartial
  | scan
  | createObjectParent (hash : String)
  | removeCorrupt (hash : String)
  | removeTemporary (hash : String)
  | createTemporary (hash : String)
  | copyTemporary (hash : String)
  | removeMismatched (hash : String)
  | renameObject (hash : String)
  | writeMetadata (file : MetadataFile)
  | renameMetadata (file : MetadataFile)
  | renameSnapshot
  | writeLatest
  | renameLatest
  | removeLatest
  | readFiles (name : String)
  | removeObject (hash : String)
  | pruneDirectories
deriving DecidableEq

/-- How a `remove_all` ends. When it fails or the process stops, some files of the directory are gone. -/
inductive Removal where
  | done
  | fails (gone : List MetadataFile)
  | stops (gone : List MetadataFile)
deriving DecidableEq

/-- What happens to the file system operations of one call. -/
structure RepositoryFaults where
  steps : RepositoryStep → Fault := fun _ => .none
  removals : String → Removal := fun _ => .done

abbrev Storing := EStateM Interrupt LocalSnapshotRepository

def failedWrite : String := "failed to write temporary file"

def filesystemError : String := "filesystem error"

/-- `remove_all` with an error code. -/
def removeAll (faults : RepositoryFaults) (name : String) : Storing Bool :=
  match faults.removals name with
  | .done => do
    modify (·.eraseSnapshot name)
    pure true
  | .fails gone => do
    modify (·.changeSnapshot name (.without gone))
    pure false
  | .stops gone => do
    modify (·.changeSnapshot name (.without gone))
    throw .stopped

/-- The name ends in `.partial`. -/
def isPartial (name : String) : Bool :=
  8 ≤ name.length && name.toList.drop (name.length - 8) == ".partial".toList

def partialName (backupId : String) : String := backupId ++ ".partial"

def makeBackupId (timestamp : String) (epochMilliseconds fileCount : ℕ) : String :=
  timestamp ++ "-ms-" ++ toString epochMilliseconds ++ "-files-" ++ toString fileCount

/-- The names of the completed snapshots, in order. -/
def completedSnapshotDirs (repository : LocalSnapshotRepository) : List String :=
  (repository.snapshots.toList.filter fun entry => !isPartial entry.1 && entry.2.complete).map Prod.fst

def collectSnapshotObjectHashes (faults : RepositoryFaults) (referenced : Std.ExtTreeSet String) (name : String) :
    Storing (Std.ExtTreeSet String) := do
  step (faults.steps (.readFiles name)) ("failed to read file: " ++ name) id
  match (← get).snapshots[name]? with
  | some dir => pure (referenced.insertMany (dir.entries.map SnapshotFileEntry.sha256))
  | none => pure referenced

/-- The newer of two backups, where the excluded one does not count and there may be none yet. -/
def newerBackupId (excluded newest backupId : String) : String :=
  if backupId = excluded then newest else if newest = "" ∨ newest < backupId then backupId else newest

def newestCompletedBackupId (repository : LocalSnapshotRepository) (excluded : String) : String :=
  (completedSnapshotDirs repository).foldl (newerBackupId excluded) ""

def pruneLocalSnapshotRepository (faults : RepositoryFaults) (retentionCount : ℕ) : Storing Unit := do
  if retentionCount = 0 then pure ()
  else
    let snapshots := completedSnapshotDirs (← get)
    if snapshots.length ≤ retentionCount then pure ()
    else
      (snapshots.take (snapshots.length - retentionCount)).forM fun name => discard (removeAll faults name)
      let referenced ← (completedSnapshotDirs (← get)).foldlM (collectSnapshotObjectHashes faults) ∅
      (← get).objects.keys.forM fun hash =>
        if hash.length = 64 ∧ hash ∉ referenced then
          discard (tryStep (faults.steps (.removeObject hash)) (·.removeObject hash))
        else pure ()
      step (faults.steps .pruneDirectories) filesystemError id

def temporaryName (hash : String) : String := hash ++ ".tmp"

/-- What `copy_or_link_object` does once nothing lies at the destination: copy, compare and rename. -/
def copyObject (sha : Sha256) (faults : RepositoryFaults) (hash : String) (content : Bytes) : Storing Unit := do
  step (faults.steps (.createTemporary hash)) "failed to copy backup object" (·.putObject (temporaryName hash) [])
  step (faults.steps (.copyTemporary hash)) "failed to copy backup object" (·.putObject (temporaryName hash) content)
  if sha.file content ≠ hash then
    discard (tryStep (faults.steps (.removeMismatched hash)) (·.removeObject (temporaryName hash)))
    throw (.failed "backup object checksum changed while copying")
  else
    step (faults.steps (.renameObject hash)) filesystemError fun repository =>
      (repository.putObject hash content).removeObject (temporaryName hash)

/-- The source is what lies there when it is copied, if anything does. -/
def copyOrLinkObject (sha : Sha256) (faults : RepositoryFaults) (source : Option Bytes) (hash : String) :
    Storing Unit := do
  step (faults.steps (.createObjectParent hash)) filesystemError id
  let existing := (← get).objects[hash]?
  if existing.any fun content => sha.file content == hash then pure ()
  else
    if existing.isSome then
      step (faults.steps (.removeCorrupt hash)) "failed to replace corrupt backup object" (·.removeObject hash)
    discard (tryStep (faults.steps (.removeTemporary hash)) (·.removeObject (temporaryName hash)))
    match source with
    | some content => copyObject sha faults hash content
    | none => throw (.failed "failed to copy backup object")

/-- The files that a call backs up, as the inventory finds them. -/
structure CheckpointFiles where
  checkpoint : List (String × Bytes)
  config : Option Bytes := none
  chainGenesis : Option Bytes := none
  genesis : Option Bytes := none
  descriptors : Option Bytes := none

/-- One call of `store_checkpoint_snapshot`. What the source of an entry holds may have changed before it is copied. -/
structure StoreCall where
  timestamp : String
  epochMilliseconds : ℕ
  files : CheckpointFiles
  sources : SnapshotFileEntry → Option Bytes
  retentionCount : ℕ
  faults : RepositoryFaults := {}

def StoreCall.backupId (call : StoreCall) : String :=
  makeBackupId call.timestamp call.epochMilliseconds call.files.checkpoint.length

def fileEntry (sha : Sha256) (path : String) (runtimeFile : Bool) (content : Bytes) : SnapshotFileEntry where
  path := path
  sha256 := sha.file content
  sizeBytes := content.length
  runtimeFile := runtimeFile

/-- The later of two entries of one path is kept, and the entries are in the order of their paths. -/
def buildFileInventory (sha : Sha256) (files : CheckpointFiles) : List SnapshotFileEntry :=
  let checkpoint := files.checkpoint.map fun file => fileEntry sha file.1 false file.2
  let config := files.config.toList.map (fileEntry sha "config.yml" true)
  let genesis := (files.chainGenesis <|> files.genesis).toList.map (fileEntry sha "chain/genesis_data.json" true)
  let descriptors := files.descriptors.toList.map (fileEntry sha "jsonrpc/descriptors/koinos_descriptors.pb" true)
  let byPath := (checkpoint ++ config ++ genesis ++ descriptors).foldl
    (fun (entries : Std.ExtTreeMap String SnapshotFileEntry) entry => entries.insert entry.path entry) ∅
  byPath.values

/-- The running totals of a call. -/
structure StoreTotals where
  totalBytes : ℕ := 0
  dbBytes : ℕ := 0
  runtimeBytes : ℕ := 0
  uniqueObjectSizes : Std.ExtTreeMap String ℕ := ∅
  newObjects : ℕ := 0
  reusedObjects : ℕ := 0

namespace StoreTotals

def count (entry : SnapshotFileEntry) (totals : StoreTotals) : StoreTotals :=
  { totals with
    totalBytes := totals.totalBytes + entry.sizeBytes
    dbBytes := if entry.runtimeFile then totals.dbBytes else totals.dbBytes + entry.sizeBytes
    runtimeBytes := if entry.runtimeFile then totals.runtimeBytes + entry.sizeBytes else totals.runtimeBytes }

def addUnique (entry : SnapshotFileEntry) (totals : StoreTotals) : StoreTotals :=
  { totals with uniqueObjectSizes := totals.uniqueObjectSizes.insert entry.sha256 entry.sizeBytes }

end StoreTotals

def storeEntry (sha : Sha256) (call : StoreCall) (totals : StoreTotals) (entry : SnapshotFileEntry) :
    Storing StoreTotals := do
  let counted := totals.count entry
  if entry.sha256 ∈ counted.uniqueObjectSizes then pure counted
  else
    let unique := counted.addUnique entry
    Exec.require (entry.sha256.length = 64) (.failed "invalid SHA-256 length for object path")
    if entry.sha256 ∈ (← get).objects then pure { unique with reusedObjects := unique.reusedObjects + 1 }
    else
      copyOrLinkObject sha call.faults (call.sources entry) entry.sha256
      pure { unique with newObjects := unique.newObjects + 1 }

/-- The temporary file of `write_file_atomic` is left out; its creation and its rename are two steps. -/
def writeMetadata (faults : RepositoryFaults) (name : String) (file : MetadataFile) (set : SnapshotDir → SnapshotDir) :
    Storing Unit := do
  step (faults.steps (.writeMetadata file)) failedWrite id
  step (faults.steps (.renameMetadata file)) filesystemError (·.changeSnapshot name set)

def writeLatest (faults : RepositoryFaults) (backupId : String) : Storing Unit := do
  step (faults.steps .writeLatest) failedWrite id
  step (faults.steps .renameLatest) filesystemError (·.setLatest (some backupId))

structure LocalSnapshotResult where
  backupId : String
  fileCount : ℕ
  objectCount : ℕ
  newObjectCount : ℕ
  reusedObjectCount : ℕ
  totalBytes : ℕ
deriving DecidableEq

def StoreTotals.manifest (totals : StoreTotals) (backupId : String) (fileCount : ℕ) : SnapshotManifest where
  backupId := backupId
  fileCount := fileCount
  objectCount := totals.uniqueObjectSizes.size
  totalBytes := totals.totalBytes
  dbBytes := totals.dbBytes
  runtimeBytes := totals.runtimeBytes
  uniqueObjectBytes := totals.uniqueObjectSizes.foldl (fun sum _ size => sum + size) 0

def StoreTotals.result (totals : StoreTotals) (backupId : String) (fileCount : ℕ) : LocalSnapshotResult where
  backupId := backupId
  fileCount := fileCount
  objectCount := totals.uniqueObjectSizes.size
  newObjectCount := totals.newObjects
  reusedObjectCount := totals.reusedObjects
  totalBytes := totals.totalBytes

/-- From the metadata files on. -/
def completeSnapshot (call : StoreCall) (entries : List SnapshotFileEntry) (totals : StoreTotals) :
    Storing LocalSnapshotResult := do
  let backupId := call.backupId
  let partialDir := partialName backupId
  writeMetadata call.faults partialDir .files ({ · with files := some entries })
  writeMetadata call.faults partialDir .manifest ({ · with manifest := some (totals.manifest backupId entries.length) })
  writeMetadata call.faults partialDir .complete ({ · with complete := true })
  step (call.faults.steps .renameSnapshot) filesystemError (·.renameSnapshot partialDir backupId)
  writeLatest call.faults backupId
  pruneLocalSnapshotRepository call.faults call.retentionCount
  pure (totals.result backupId entries.length)

/-- The body of the `try`. -/
def fillSnapshot (sha : Sha256) (call : StoreCall) : Storing LocalSnapshotResult := do
  step (call.faults.steps .scan) "failed while scanning checkpoint directory" id
  let entries := buildFileInventory sha call.files
  Exec.require (!entries.isEmpty) (.failed "backup snapshot inventory is empty")
  let totals ← entries.foldlM (storeEntry sha call) {}
  completeSnapshot call entries totals

/-- An exception removes the `.partial` directory; nothing runs once the process has stopped. -/
def abandonSnapshot (faults : RepositoryFaults) (partialDir : String) : Interrupt → Storing LocalSnapshotResult
  | .failed message => do
    discard (removeAll faults partialDir)
    throw (.failed message)
  | .stopped => throw .stopped

def storeCheckpointSnapshot (sha : Sha256) (call : StoreCall) : Storing LocalSnapshotResult := do
  let repository ← get
  let partialDir := partialName call.backupId
  Exec.require (partialDir ∉ repository.snapshots ∧ call.backupId ∉ repository.snapshots)
    (.failed ("snapshot already exists: " ++ call.backupId))
  step (call.faults.steps .createPartial) filesystemError (·.setSnapshot partialDir {})
  tryCatch (fillSnapshot sha call) (abandonSnapshot call.faults partialDir)

/-- One call of `delete_local_backup_snapshot`. -/
structure DeleteCall where
  backupId : String
  dryRun : Bool := false
  faults : RepositoryFaults := {}

structure BackupDeleteResult where
  backupId : String
  dryRun : Bool
  previousLatestBackupId : String
  deletedLatest : Bool
  newLatestBackupId : String
  snapshotMetadataFileCount : ℕ
  reclaimableObjectCount : ℕ
  reclaimableObjectBytes : ℕ
  deletedSnapshot : Bool := false
  deletedObjectCount : ℕ := 0
  deletedObjectBytes : ℕ := 0
deriving DecidableEq

/-- A single component of a path that does not name a `.partial` directory. -/
def isBackupIdPathComponent (backupId : String) : Bool :=
  backupId ≠ "" && !backupId.toList.contains '/' && backupId ≠ "." && backupId ≠ ".." && !isPartial backupId

def readLatestBackupId (repository : LocalSnapshotRepository) : String := repository.latest.getD ""

/-- The hashes of a snapshot in order, each once. -/
def snapshotObjects (dir : SnapshotDir) : List String :=
  (dir.entries.foldl (fun (hashes : Std.ExtTreeSet String) entry => hashes.insert entry.sha256) ∅).toList

/-- The objects of a snapshot that no other one names and that are there, with their contents. -/
def reclaimableObjects (repository : LocalSnapshotRepository) (dir : SnapshotDir) (remaining : Std.ExtTreeSet String) :
    List (String × Bytes) :=
  (snapshotObjects dir).filterMap fun hash =>
    if hash ∈ remaining then none else repository.objects[hash]?.map fun content => (hash, content)

/-- Remove the objects, as long as nothing fails. -/
def removeObjects (faults : RepositoryFaults) (objects : List (String × Bytes)) : Storing Unit :=
  objects.forM fun object =>
    step (faults.steps (.removeObject object.1)) "failed to remove unreferenced backup object"
      (·.removeObject object.1)

/-- The last part of a deletion. -/
def replaceLatest (faults : RepositoryFaults) (newLatest : String) : Storing Unit :=
  if newLatest = "" then step (faults.steps .removeLatest) "failed to remove local latest.json" (·.setLatest none)
  else writeLatest faults newLatest

/-- What a deletion finds before it removes anything. -/
structure DeletionPlan where
  objects : List (String × Bytes)
  deletedLatest : Bool
  newLatestBackupId : String

/-- The part of a deletion that removes something. -/
def removeSnapshot (call : DeleteCall) (plan : DeletionPlan) : Storing Unit := do
  let removed ← removeAll call.faults call.backupId
  Exec.require removed (.failed ("failed to remove local backup snapshot " ++ call.backupId))
  removeObjects call.faults plan.objects
  step (call.faults.steps .pruneDirectories) filesystemError id
  if plan.deletedLatest then replaceLatest call.faults plan.newLatestBackupId else pure ()

def totalBytes (objects : List (String × Bytes)) : ℕ := objects.foldl (fun sum object => sum + object.2.length) 0

def deleteLocalBackupSnapshot (call : DeleteCall) : Storing BackupDeleteResult := do
  Exec.require (call.backupId ≠ "latest")
    (.failed "backup deletion requires an exact backup ID; 'latest' is not accepted")
  Exec.require (isBackupIdPathComponent call.backupId) (.failed ("invalid backup ID: " ++ call.backupId))
  let repository ← get
  match repository.snapshots[call.backupId]? with
  | none => throw (.failed ("backup snapshot not found: " ++ call.backupId))
  | some dir => do
    Exec.require dir.complete (.failed ("backup snapshot is not complete: " ++ call.backupId))
    let previousLatest := readLatestBackupId repository
    let deletedLatest := previousLatest == call.backupId
    let newLatest := if deletedLatest then newestCompletedBackupId repository call.backupId else previousLatest
    step (call.faults.steps (.readFiles call.backupId)) ("failed to read file: " ++ call.backupId) id
    Exec.require ((snapshotObjects dir).all fun hash => hash.length = 64)
      (.failed "invalid SHA-256 in backup files manifest")
    let remaining ← ((completedSnapshotDirs repository).filter (· ≠ call.backupId)).foldlM
      (collectSnapshotObjectHashes call.faults) ∅
    let objects := reclaimableObjects repository dir remaining
    let result : BackupDeleteResult :=
      { backupId := call.backupId, dryRun := call.dryRun, previousLatestBackupId := previousLatest
        deletedLatest := deletedLatest, newLatestBackupId := newLatest, snapshotMetadataFileCount := dir.fileCount
        reclaimableObjectCount := objects.length, reclaimableObjectBytes := totalBytes objects }
    if call.dryRun then pure result
    else do
      removeSnapshot call { objects := objects, deletedLatest := deletedLatest, newLatestBackupId := newLatest }
      pure { result with
        deletedSnapshot := true, deletedObjectCount := objects.length, deletedObjectBytes := totalBytes objects }

/-- One call on a repository. -/
inductive RepositoryCall where
  | store (call : StoreCall)
  | delete (call : DeleteCall)

/-- The repository that a call leaves behind, whether it returns or not. -/
def RepositoryCall.run (sha : Sha256) (repository : LocalSnapshotRepository) : RepositoryCall → LocalSnapshotRepository
  | .store call => Exec.final (storeCheckpointSnapshot sha call repository)
  | .delete call => Exec.final (deleteLocalBackupSnapshot call repository)

def runRepositoryCalls (sha : Sha256) (repository : LocalSnapshotRepository) (calls : List RepositoryCall) :
    LocalSnapshotRepository :=
  calls.foldl (RepositoryCall.run sha) repository

end Teleno.Backup
