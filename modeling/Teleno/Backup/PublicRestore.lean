import Mathlib.Algebra.Ring.Nat
import Teleno.Library.FileTree
import Teleno.Backup.Repository

/-! # Restoring from a public server

`fetch_public_restore_snapshot` downloads the metadata of a snapshot, checks its signature when one is required, keeps
the metadata in the local repository unless it has some of that snapshot already, and downloads the objects that are
missing. The server answers every request as it likes. A preflight on the local repository says at the end whether
the snapshot is ready to be staged.
-/

namespace Teleno.Backup

open Library

abbrev RepositoryTree := FileTree Bytes

/-- What one call asks the server for. -/
inductive PublicRequest where
  | latest
  | manifest
  | files
  | complete
  | publicMetadata
  | signature
  | object (hash : String)
deriving DecidableEq

structure BackupPublicRestoreConfig where
  network : String := "testnet"
  retries : ℕ := 3
  signatureRequired : Bool := false
  signaturePublicKeyFile : String := ""

/-- The fields of `latest.json`. -/
structure LatestPointer where
  backupId : String
  snapshotDir : Option String := none
  manifest : Option String := none
  files : Option String := none
  publicMetadata : Option String := none
  signature : Option String := none

/-- The counts under `snapshot` in `manifest.json`. -/
structure SnapshotCounts where
  objectCount : ℕ
  totalBytes : ℕ

/-- The numbers under `sizes` in `manifest.json`. -/
structure RestoreSizes where
  restoredDatabaseBytes : ℕ := 0
  runtimeFilesBytes : ℕ := 0
  archiveBytes : ℕ := 0

structure ManifestFields where
  backupId : Option String
  snapshot : Option SnapshotCounts
  sizes : Option RestoreSizes
  startAsObserverFirst : Bool := true

/-- An entry of `files.json`. -/
structure ObjectEntry where
  sha256 : String
  sizeBytes : ℕ := 0

structure SignaturePayload where
  backupId : String
  network : String
  latestSha256 : String
  manifestSha256 : String
  filesSha256 : String
  publicMetadataSha256 : String
  objectCount : ℕ
  totalBytes : ℕ

/-- The signature file, with the canonical text of its payload. -/
structure SignatureEnvelope where
  format : String
  version : ℕ
  algorithm : String
  payload : SignaturePayload
  message : Bytes
  signatureHex : String

structure PublicMetadataFields where
  backupId : String
  network : String

/-- How the files are read, and what a signature under a key file is. -/
structure PublicFormats where
  sha : Sha256
  latest : Bytes → Option LatestPointer
  manifest : Bytes → Option ManifestFields
  files : Bytes → Option (List ObjectEntry)
  signature : Bytes → Option SignatureEnvelope
  publicMetadata : Bytes → Option PublicMetadataFields
  latestJsonForBackupId : String → Bytes
  verifies : String → Bytes → String → Bool

/-- The file system operations of one call. -/
inductive PublicStep where
  | createMetadataRoot
  | createPartial
  | copy (file : String)
  | rename (file : String)
  | renameSnapshot
  | createObjectParent (hash : String)
  | removePartial (hash : String)
  | writePartial (hash : String)
  | renameObject (hash : String)
deriving DecidableEq

/-- The free and the used bytes at the target. -/
structure TargetSpace where
  available : ℕ
  existing : ℕ := 0

/-- One call of `list_public_backup_snapshots` or `fetch_public_restore_snapshot`. -/
structure PublicCall where
  config : BackupPublicRestoreConfig
  backupId : String
  /-- The answer to each attempt at a request. -/
  answers : PublicRequest → ℕ → Option Bytes
  faults : PublicStep → Fault := fun _ => .none
  repositoryAvailable : ℕ
  spaceBefore : TargetSpace
  spaceAfter : TargetSpace
  /-- Something lies where a name that is no hash leads. -/
  elsewhere : String → Bool := fun _ => false

abbrev Fetching := EStateM Interrupt RepositoryTree

def raise {α : Type} : Except String α → Fetching α
  | .ok a => pure a
  | .error message => throw (.failed message)

/-- The value that must be there. -/
def orThrow {α : Type} (message : String) : Option α → Except String α
  | some a => .ok a
  | none => .error message

def ensure (holds : Bool) (message : String) : Except String Unit := if holds then .ok () else .error message

section Paths

/-- The components of a path; repeated slashes count once. -/
def pathComponents (text : String) : List String :=
  let parts := (text.toList.splitOn '/').map String.ofList
  parts.dropLast.filter (· ≠ "") ++ parts.drop (parts.length - 1)

def isRelativePath (text : String) : Bool :=
  text ≠ "" && text.toList.head? ≠ some '/' && (pathComponents text).all fun part => part ≠ "." && part ≠ ".."

def isBackupIdFragment (backupId : String) : Bool :=
  backupId == "latest" || (backupId ≠ "" && backupId ≠ "." && backupId ≠ ".." && !backupId.toList.contains '/' &&
    !backupId.toList.contains '\\' && !isPartial backupId)

def snapshotPath (name : String) : List String := ["snapshots", name]

def filesPath (name : String) : List String := ["snapshots", name, "files.json"]

def manifestPath (name : String) : List String := ["snapshots", name, "manifest.json"]

def completePath (name : String) : List String := ["snapshots", name, "COMPLETE"]

def latestPath : List String := ["latest.json"]

def isHexDigit (ch : Char) : Bool := ch.isDigit || ('a' ≤ ch && ch ≤ 'f')

/-- The hexadecimal form of a hash. -/
def isHash (name : String) : Bool := name.length == 64 && name.toList.all isHexDigit

def objectDir (hash : String) : List String :=
  ["objects", "sha256", String.ofList (hash.toList.take 2), String.ofList ((hash.toList.drop 2).take 2)]

/-- The place of an object; a name with slashes or dots would lead elsewhere. -/
def objectPath (hash : String) : List String := objectDir hash ++ [hash]

def partialObjectPath (hash : String) : List String := objectDir hash ++ [hash ++ ".partial"]

end Paths

section Metadata

/-- Where the files of a snapshot are on the server. -/
structure PublicSnapshotMetadata where
  backupId : String
  snapshotDirName : String
  manifestRel : String
  filesRel : String
  publicMetadataRel : String
  signatureRel : String
  /-- The downloaded `latest.json`, when it was asked for. -/
  latest : Option Bytes := none

/-- The metadata files of a snapshot as they were downloaded. -/
structure DownloadedMetadata extends PublicSnapshotMetadata where
  manifest : Bytes
  files : Bytes
  complete : Bytes
  signatureVerified : Bool
  fileCount : ℕ

/-- The first attempt that succeeds. -/
def PublicCall.download (call : PublicCall) (request : PublicRequest) : Except String Bytes :=
  orThrow "failed to fetch public backup URL"
    ((List.range (max 1 call.config.retries)).findSome? (call.answers request))

def PublicCall.selectedBackupId (call : PublicCall) : String := if call.backupId = "latest" then "" else call.backupId

def snapshotRel (name file : String) : String := "snapshots/" ++ name ++ "/" ++ file

def LatestPointer.dirName (pointer : LatestPointer) : String := pointer.snapshotDir.getD pointer.backupId

def LatestPointer.filesRel (pointer : LatestPointer) : String :=
  pointer.files.getD (snapshotRel pointer.dirName "files.json")

def LatestPointer.manifestRel (pointer : LatestPointer) : String :=
  pointer.manifest.getD (snapshotRel pointer.dirName "manifest.json")

def LatestPointer.metadata (pointer : LatestPointer) (latest : Bytes) : PublicSnapshotMetadata where
  backupId := pointer.backupId
  snapshotDirName := pointer.dirName
  manifestRel := pointer.manifestRel
  filesRel := pointer.filesRel
  publicMetadataRel := pointer.publicMetadata.getD (snapshotRel pointer.dirName "public-bootstrap.json")
  signatureRel := pointer.signature.getD (snapshotRel pointer.dirName "public-bootstrap-signature.json")
  latest := some latest

def metadataOf (backupId : String) : PublicSnapshotMetadata where
  backupId := backupId
  snapshotDirName := backupId
  manifestRel := snapshotRel backupId "manifest.json"
  filesRel := snapshotRel backupId "files.json"
  publicMetadataRel := snapshotRel backupId "public-bootstrap.json"
  signatureRel := snapshotRel backupId "public-bootstrap-signature.json"

def locateMetadata (formats : PublicFormats) (call : PublicCall) : Except String PublicSnapshotMetadata := do
  if call.selectedBackupId = "" then
    let latest ← call.download .latest
    let pointer ← orThrow "invalid public latest.json" (formats.latest latest)
    pure (pointer.metadata latest)
  else
    ensure (isBackupIdFragment call.selectedBackupId) "backup ID must be a single snapshot directory name"
    pure (metadataOf call.selectedBackupId)

def validateMetadata (metadata : PublicSnapshotMetadata) : Except String Unit := do
  ensure (isBackupIdFragment metadata.backupId) "backup ID must be a single snapshot directory name"
  ensure (isBackupIdFragment metadata.snapshotDirName) "backup ID must be a single snapshot directory name"
  ensure (isRelativePath metadata.snapshotDirName) "backup metadata contains an unsafe path"
  ensure (isRelativePath metadata.manifestRel) "backup metadata contains an unsafe path"
  ensure (isRelativePath metadata.filesRel) "backup metadata contains an unsafe path"
  ensure (isRelativePath metadata.publicMetadataRel) "backup metadata contains an unsafe path"
  ensure (isRelativePath metadata.signatureRel) "backup metadata contains an unsafe path"

/-- What the payload of the signature says about the downloaded files. -/
def checkPayload (formats : PublicFormats) (config : BackupPublicRestoreConfig) (metadata : PublicSnapshotMetadata)
    (payload : SignaturePayload) (manifest files publicMetadata : Bytes) : Except String Unit := do
  ensure (payload.backupId == metadata.backupId) "public bootstrap signature backup_id mismatch"
  ensure (config.network == "" || payload.network == config.network) "public bootstrap signature network mismatch"
  ensure (metadata.latest.all fun latest => payload.latestSha256 == formats.sha.file latest)
    "public bootstrap signature latest.json hash mismatch"
  ensure (payload.manifestSha256 == formats.sha.file manifest) "public bootstrap signature manifest hash mismatch"
  ensure (payload.filesSha256 == formats.sha.file files) "public bootstrap signature files hash mismatch"
  ensure (payload.publicMetadataSha256 == formats.sha.file publicMetadata)
    "public bootstrap signature metadata hash mismatch"
  let fields ← orThrow "invalid public backup manifest" (formats.manifest manifest)
  let snapshot ← orThrow "public backup manifest has no snapshot" fields.snapshot
  ensure (payload.objectCount == snapshot.objectCount) "public bootstrap signature object_count mismatch"
  ensure (payload.totalBytes == snapshot.totalBytes) "public bootstrap signature total_bytes mismatch"
  let described ← orThrow "invalid public bootstrap metadata" (formats.publicMetadata publicMetadata)
  ensure (described.backupId == metadata.backupId) "public bootstrap metadata backup_id mismatch"
  ensure (described.network == payload.network) "public bootstrap metadata network mismatch"

/-- The signature file has the expected form and its signature is one under the configured key. -/
def checkEnvelope (formats : PublicFormats) (config : BackupPublicRestoreConfig) (signature : Bytes) :
    Except String SignatureEnvelope := do
  let envelope ← orThrow "invalid public bootstrap signature" (formats.signature signature)
  ensure (envelope.format == "teleno-public-bootstrap-signature") "public bootstrap signature has unexpected format"
  ensure (envelope.version == 1) "public bootstrap signature has unsupported version"
  ensure (envelope.algorithm == "ed25519") "public bootstrap signature must use ed25519"
  ensure (config.signaturePublicKeyFile ≠ "")
    "public bootstrap signature verification requires signature-public-key-file"
  ensure (formats.verifies config.signaturePublicKeyFile envelope.message envelope.signatureHex)
    "public bootstrap signature verification failed"
  pure envelope

def verifyDownloaded (formats : PublicFormats) (call : PublicCall) (metadata : PublicSnapshotMetadata)
    (manifest files publicMetadata signature : Bytes) : Except String Unit := do
  let envelope ← checkEnvelope formats call.config signature
  checkPayload formats call.config metadata envelope.payload manifest files publicMetadata

/-- Without a required signature, a missing one is passed over. Returns whether a signature was verified, and how many
files were downloaded for it. -/
def verifyPublicBootstrapSignature (formats : PublicFormats) (call : PublicCall) (metadata : PublicSnapshotMetadata)
    (manifest files : Bytes) : Except String (Bool × ℕ) := do
  if call.config.signatureRequired then
    let publicMetadata ← call.download .publicMetadata
    let signature ← call.download .signature
    verifyDownloaded formats call metadata manifest files publicMetadata signature
    pure (true, 2)
  else if call.config.signaturePublicKeyFile = "" then pure (false, 0)
  else
    match call.download .publicMetadata with
    | .error _ => pure (false, 0)
    | .ok publicMetadata =>
      match call.download .signature with
      | .error _ => pure (false, 1)
      | .ok signature =>
        verifyDownloaded formats call metadata manifest files publicMetadata signature
        pure (true, 2)

/-- Everything of `fetch_public_metadata` that happens in its temporary directory. -/
def downloadMetadata (formats : PublicFormats) (call : PublicCall) : Except String DownloadedMetadata := do
  let metadata ← locateMetadata formats call
  validateMetadata metadata
  let manifest ← call.download .manifest
  let files ← call.download .files
  let complete ← call.download .complete
  let verified ← verifyPublicBootstrapSignature formats call metadata manifest files
  let fields ← orThrow "invalid public backup manifest" (formats.manifest manifest)
  let manifestBackupId := fields.backupId.getD metadata.backupId
  ensure (isBackupIdFragment manifestBackupId) "backup ID must be a single snapshot directory name"
  ensure (manifestBackupId == metadata.backupId) "public backup manifest backup_id does not match requested metadata"
  pure { toPublicSnapshotMetadata := metadata, manifest := manifest, files := files, complete := complete
         signatureVerified := verified.1, fileCount := metadata.latest.toList.length + 3 + verified.2 }

end Metadata

section Caching

/-- The copy goes to a temporary file, which is left out, and is renamed. -/
def copyFileAtomic (faults : PublicStep → Fault) (file : String) (path : List String) (content : Bytes) :
    Fetching Unit := do
  refusableStep (faults (.copy file)) filesystemError some
  refusableStep (faults (.rename file)) filesystemError (FileTree.write path content)

def cacheDownloadedSnapshotMetadata (faults : PublicStep → Fault) (name : String) (manifest files complete : Bytes) :
    Fetching Unit := do
  Exec.require (isBackupIdFragment name) (.failed "backup ID must be a single snapshot directory name")
  let tree ← get
  if tree.occupied (snapshotPath name) then
    Exec.require (tree.occupied (completePath name))
      (.failed ("local snapshot metadata exists but is incomplete: " ++ name))
  else
    let partialDir := partialName name
    Exec.require (!tree.occupied (snapshotPath partialDir))
      (.failed ("local partial snapshot metadata already exists: " ++ partialDir))
    refusableStep (faults .createPartial) filesystemError (FileTree.makeDirectories (snapshotPath partialDir))
    copyFileAtomic faults "files.json" (filesPath partialDir) files
    copyFileAtomic faults "manifest.json" (manifestPath partialDir) manifest
    copyFileAtomic faults "COMPLETE" (completePath partialDir) complete
    refusableStep (faults .renameSnapshot) filesystemError
      (FileTree.rename (snapshotPath partialDir) (snapshotPath name))

/-- The local `latest.json` becomes the downloaded one, or names the requested backup if there is none. -/
def cacheLatest (formats : PublicFormats) (faults : PublicStep → Fault) (metadata : DownloadedMetadata) :
    Fetching Unit := do
  match metadata.latest with
  | some latest => copyFileAtomic faults "latest.json" latestPath latest
  | none =>
    if (← get).occupied latestPath then pure ()
    else copyFileAtomic faults "latest.json" latestPath (formats.latestJsonForBackupId metadata.backupId)

def fetchPublicMetadata (formats : PublicFormats) (call : PublicCall) : Fetching DownloadedMetadata := do
  refusableStep (call.faults .createMetadataRoot) filesystemError some
  let metadata ← raise (downloadMetadata formats call)
  cacheDownloadedSnapshotMetadata call.faults metadata.snapshotDirName metadata.manifest metadata.files
    metadata.complete
  cacheLatest formats call.faults metadata
  pure metadata

end Caching

section Preflight

def metadataOverheadBytes : ℕ := 128 * 1024 * 1024

def minimumTargetFreeBytes (sizes : RestoreSizes) (existing : ℕ) : ℕ :=
  (sizes.restoredDatabaseBytes + sizes.runtimeFilesBytes + sizes.archiveBytes + existing +
    metadataOverheadBytes) % 2 ^ 64

structure RestorePreflightResult where
  backupId : String
  snapshotDir : List String
  manifestPath : List String
  filesPath : List String
  fileCount : ℕ
  missingObjectCount : ℕ
  missingObjectBytes : ℕ
  snapshotComplete : Bool
  startAsObserverFirst : Bool
  passesMinimum : Bool

def RestorePreflightResult.readyToRestore (result : RestorePreflightResult) : Bool :=
  result.snapshotComplete && result.missingObjectCount == 0 && result.passesMinimum

/-- Something lies at the path of an object. -/
def objectExists (elsewhere : String → Bool) (tree : RepositoryTree) (hash : String) : Bool :=
  if isHash hash then tree.occupied (objectPath hash) else elsewhere hash

/-- The directory, the manifest and the file list of the snapshot that is to be restored. -/
structure RestorePaths where
  backupId : String
  snapshotDir : List String
  manifestPath : List String
  filesPath : List String

def LatestPointer.paths (pointer : LatestPointer) : RestorePaths where
  backupId := pointer.backupId
  snapshotDir := "snapshots" :: pathComponents pointer.dirName
  manifestPath := pathComponents pointer.manifestRel
  filesPath := pathComponents pointer.filesRel

def pathsOf (backupId : String) : RestorePaths where
  backupId := backupId
  snapshotDir := snapshotPath backupId
  manifestPath := manifestPath backupId
  filesPath := filesPath backupId

def restorePaths (formats : PublicFormats) (tree : RepositoryTree) (requested : String) :
    Except String RestorePaths := do
  if requested = "" then
    let latest ← orThrow "failed to read file: latest.json" (tree.read latestPath)
    let pointer ← orThrow "invalid latest.json" (formats.latest latest)
    pure pointer.paths
  else
    ensure (isBackupIdPathComponent requested) ("invalid backup ID: " ++ requested)
    ensure (tree.isDirectory (snapshotPath requested)) ("backup snapshot not found: " ++ requested)
    pure (pathsOf requested)

/-- Count an entry whose object is missing. -/
def countMissing (elsewhere : String → Bool) (tree : RepositoryTree) (missing : ℕ × ℕ) (entry : ObjectEntry) :
    Except String (ℕ × ℕ) := do
  ensure (entry.sha256.length == 64) "invalid SHA-256 length for object path"
  pure (if objectExists elsewhere tree entry.sha256 then missing
    else (missing.1 + 1, (missing.2 + entry.sizeBytes) % 2 ^ 64))

def buildLocalRestorePreflight (formats : PublicFormats) (elsewhere : String → Bool) (space : TargetSpace)
    (requested : String) (tree : RepositoryTree) : Except String RestorePreflightResult := do
  let paths ← restorePaths formats tree requested
  let manifest ← orThrow "failed to read file: manifest.json" (tree.read paths.manifestPath)
  let fields ← orThrow "invalid manifest.json" (formats.manifest manifest)
  let files ← orThrow "failed to read file: files.json" (tree.read paths.filesPath)
  let entries ← orThrow "invalid files.json" (formats.files files)
  let sizes ← orThrow "manifest.json has no sizes" fields.sizes
  let missing ← entries.foldlM (countMissing elsewhere tree) (0, 0)
  pure
    { backupId := paths.backupId, snapshotDir := paths.snapshotDir, manifestPath := paths.manifestPath
      filesPath := paths.filesPath, fileCount := entries.length, missingObjectCount := missing.1
      missingObjectBytes := missing.2, snapshotComplete := tree.occupied (paths.snapshotDir ++ ["COMPLETE"])
      startAsObserverFirst := fields.startAsObserverFirst
      passesMinimum := minimumTargetFreeBytes sizes space.existing ≤ space.available }

end Preflight

section Objects

def repositoryDownloadMarginBytes : ℕ := 128 * 1024 * 1024

def objectBytes (missing : List ObjectEntry) : ℕ :=
  missing.foldl (fun sum entry => (sum + entry.sizeBytes) % 2 ^ 64) 0

def repositoryRequiredBytes (missing : List ObjectEntry) : ℕ :=
  (objectBytes missing + repositoryDownloadMarginBytes) % 2 ^ 64

/-- The first entry of each hash whose object is missing. -/
def addMissing (elsewhere : String → Bool) (tree : RepositoryTree) (planned : List String × List ObjectEntry)
    (entry : ObjectEntry) : Except String (List String × List ObjectEntry) := do
  ensure (entry.sha256.length == 64) ("invalid SHA-256 in public backup files manifest: " ++ entry.sha256)
  pure (if entry.sha256 ∈ planned.1 then planned
    else if objectExists elsewhere tree entry.sha256 then (entry.sha256 :: planned.1, planned.2)
    else (entry.sha256 :: planned.1, planned.2 ++ [entry]))

def missingObjectsFromFiles (formats : PublicFormats) (elsewhere : String → Bool) (tree : RepositoryTree)
    (path : List String) : Except String (List ObjectEntry) := do
  let files ← orThrow "failed to read file: files.json" (tree.read path)
  let entries ← orThrow "invalid files.json" (formats.files files)
  let planned ← entries.foldlM (addMissing elsewhere tree) ([], [])
  pure planned.2

/-- A name that is no hash cannot be the hash of what is downloaded for it, wherever that goes. -/
def fetchObject (formats : PublicFormats) (call : PublicCall) (entry : ObjectEntry) : Fetching Unit := do
  let hash := entry.sha256
  Exec.require (isHash hash) (.failed "downloaded public backup object checksum mismatch")
  refusableStep (call.faults (.createObjectParent hash)) filesystemError (FileTree.makeDirectories (objectDir hash))
  discard (tryStep (call.faults (.removePartial hash)) fun tree =>
    (tree.removeFile (partialObjectPath hash)).getD tree)
  let content ← raise (call.download (.object hash))
  refusableStep (call.faults (.writePartial hash)) filesystemError (FileTree.write (partialObjectPath hash) content)
  Exec.require (entry.sizeBytes == 0 || content.length == entry.sizeBytes)
    (.failed "downloaded public backup object size mismatch")
  Exec.require (formats.sha.file content == hash) (.failed "downloaded public backup object checksum mismatch")
  refusableStep (call.faults (.renameObject hash)) filesystemError
    (FileTree.rename (partialObjectPath hash) (objectPath hash))

structure PublicRestoreFetchResult where
  backupId : String
  metadataFileCount : ℕ
  signatureRequired : Bool
  signatureVerified : Bool
  preflight : RestorePreflightResult
  objectFileCount : ℕ := 0
  objectBytes : ℕ := 0
  repositoryRequiredBytes : ℕ := 0
  repositoryAvailableBytes : ℕ := 0
  downloadSkippedReason : Option String := none
  objectsFetched : Bool := false
  readyToStage : Bool := false

/-- The download is skipped when the repository has too little room. -/
def fetchMissingObjects (formats : PublicFormats) (call : PublicCall) (result : PublicRestoreFetchResult) :
    Fetching PublicRestoreFetchResult := do
  let missing ← raise (missingObjectsFromFiles formats call.elsewhere (← get) result.preflight.filesPath)
  let counted := { result with
    objectFileCount := missing.length, objectBytes := objectBytes missing
    repositoryRequiredBytes := repositoryRequiredBytes missing, repositoryAvailableBytes := call.repositoryAvailable }
  if call.repositoryAvailable < repositoryRequiredBytes missing then
    pure { counted with
      downloadSkippedReason := some "Public backup restore object download requires more free bytes" }
  else
    missing.forM (fetchObject formats call)
    pure { counted with objectsFetched := true }

end Objects

def fetchPublicRestoreSnapshot (formats : PublicFormats) (call : PublicCall) : Fetching PublicRestoreFetchResult := do
  let metadata ← fetchPublicMetadata formats call
  let preflight ← raise
    (buildLocalRestorePreflight formats call.elsewhere call.spaceBefore call.selectedBackupId (← get))
  let result : PublicRestoreFetchResult :=
    { backupId := metadata.backupId, metadataFileCount := metadata.fileCount
      signatureRequired := call.config.signatureRequired, signatureVerified := metadata.signatureVerified
      preflight := preflight }
  if preflight.passesMinimum then
    let fetched ← fetchMissingObjects formats call result
    let preflight ← raise
      (buildLocalRestorePreflight formats call.elsewhere call.spaceAfter call.selectedBackupId (← get))
    pure { fetched with preflight := preflight, readyToStage := preflight.readyToRestore }
  else pure { result with downloadSkippedReason := some "Backup restore requires more bytes free" }

/-- What a call does to the repository. -/
inductive PublicOperation where
  | list (call : PublicCall)
  | fetch (call : PublicCall)

def PublicOperation.run (formats : PublicFormats) (tree : RepositoryTree) : PublicOperation → RepositoryTree
  | .list call => Exec.final (fetchPublicMetadata formats call tree)
  | .fetch call => Exec.final (fetchPublicRestoreSnapshot formats call tree)

def runPublicOperations (formats : PublicFormats) (tree : RepositoryTree) (operations : List PublicOperation) :
    RepositoryTree :=
  operations.foldl (PublicOperation.run formats) tree

end Teleno.Backup
