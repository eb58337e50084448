import Std.Data.ExtTreeMap.Lemmas
import Teleno.Library.Disk
import Teleno.Library.Interruption
import Teleno.Protocol

/-! # Restore activation

`activate_staged_restore_snapshot` moves the node's database and a few other paths into a new directory under
`.pre-restore`, moves the staged database to their place, by a rename or by a copy and a removal, copies the staged
runtime files, and at last writes the restore marker. Every file system operation is a step that may fail or be the
last thing the process did not do.
-/

namespace Teleno.Backup

open Library

/-- The files of a directory, under their relative names. -/
abbrev Dir := Std.ExtTreeMap String Bytes

/-- A file, or a directory; the latter remembers the activation that placed it. -/
inductive Item where
  | file (content : Bytes)
  | dir (files : Dir) (placedBy : Option String)

namespace Item

def isDirectory : Item → Bool
  | dir _ _ => true
  | file _ => false

/-- Write a file of a directory. -/
def putFile (name : String) (content : Bytes) : Item → Item
  | dir files placedBy => dir (files.insert name content) placedBy
  | item => item

/-- Remove a file of a directory. -/
def removeFile (name : String) : Item → Item
  | dir files placedBy => dir (files.erase name) placedBy
  | item => item

/-- The same item, placed by an activation. -/
def place (activation : String) : Item → Item
  | dir files _ => dir files (some activation)
  | item => item

end Item

/-- A path under a staging directory, under the target's base directory, a directory under `.pre-restore`, or a path
in it. -/
inductive Place where
  | staging (dir path : String)
  | target (path : String)
  | preRestoreDir (name : String)
  | preRestore (name path : String)
deriving DecidableEq

abbrev RestoreDisk := Disk Place Item

/-- The file system operations of one activation. -/
inductive ActivationStep where
  | createTarget
  | createPreRestore
  | createPreservedParent (path : String)
  | preserve (path : String)
  | createDestinationParent
  | renameDb
  | createDb
  | createFile (name : String)
  | writeFile (name : String)
  | removeFile (name : String)
  | removeDb
  | createRuntimeParent (path : String)
  | copyRuntime (path : String)
  | copyConfig
  | writeManifest
  | writeMarker
deriving DecidableEq

abbrev Activating := EStateM Interrupt RestoreDisk

/-- The fields of `.teleno-restore-stage.json` that activation reads. -/
structure StageMetadata where
  backupId : String
  startAsObserverFirst : Bool := true

/-- `RestoreActivationResult`, with the paths that were preserved. -/
structure RestoreActivationResult where
  backupId : String
  preRestoreDir : String
  preservedPaths : List String
  startAsObserverFirst : Bool

/-- The JSON of a restore activation request. -/
structure RestoreActivationIntent where
  format : String
  version : ℕ
  targetBasedir : String
  stagingDir : String

/-- The texts of the files that are read and written. -/
structure Formats where
  parseStage : Bytes → Option StageMetadata
  manifest : RestoreActivationResult → Bytes
  parseIntent : Bytes → Option RestoreActivationIntent
  /-- The path names the base directory of this node. -/
  isBasedir : String → Bool

/-- One call: the staging directory, the time, whether another process holds the database's lock, and what happens
to each file system operation. -/
structure ActivationCall where
  stagingDir : String
  timestamp : String
  lockHeld : Bool := false
  faults : ActivationStep → Fault := fun _ => .none

def ioError : String := "filesystem error"

def contents (text : String) : Bytes := text.toUTF8.data.toList

def isPathCharacter (ch : Char) : Bool := ch.isAlphanum || ch == '-' || ch == '_' || ch == '.'

def safePathFragment (value : String) : String :=
  if value = "" then "restore" else value.map fun ch => if isPathCharacter ch then ch else '-'

/-- The lock file exists and another process holds it. -/
def rocksdbLockIsHeld (lockHeld : Bool) : Option Item → Bool
  | some (.dir files _) => files.contains "LOCK" && lockHeld
  | _ => false

def preserveExistingPath (faults : ActivationStep → Fault) (preRestoreDir path : String) :
    Activating (Option String) := do
  if ((← get) (.target path)).isNone then pure none
  else
    step (faults (.createPreservedParent path)) ioError id
    step (faults (.preserve path)) ioError (Disk.rename (.target path) (.preRestore preRestoreDir path))
    pure (some path)

def preserveExistingPaths (faults : ActivationStep → Fault) (preRestoreDir : String) :
    List String → Activating (List String)
  | [] => pure []
  | path :: rest => do
    let preserved ← preserveExistingPath faults preRestoreDir path
    let others ← preserveExistingPaths faults preRestoreDir rest
    pure (preserved.toList ++ others)

def copyStagedRuntimeFile (faults : ActivationStep → Fault) (stagingDir path : String) : Activating Unit := do
  match (← get) (.staging stagingDir path) with
  | some (.file content) =>
    step (faults (.createRuntimeParent path)) ioError id
    step (faults (.copyRuntime path)) ioError (Disk.put (.target path) (.file content))
  | _ => pure ()

/-- Whether the operating system lets an item be renamed to a destination: there must be nothing, an empty
directory for a directory, or a file for a file. -/
def renames : Option Item → Option Item → Bool
  | some _, none => true
  | some (.dir _ _), some (.dir files _) => files.isEmpty
  | some (.file _), some (.file _) => true
  | _, _ => false

/-- The recursive copy of a directory, file by file. -/
def copyFiles (faults : ActivationStep → Fault) (destination : Place) (files : Dir) : Activating Unit :=
  files.toList.forM fun entry => do
    step (faults (.createFile entry.1)) "failed to move restore path" (Disk.change destination (.putFile entry.1 []))
    step (faults (.writeFile entry.1)) "failed to move restore path"
      (Disk.change destination (.putFile entry.1 entry.2))

/-- `remove_all` of a directory. -/
def removeFiles (faults : ActivationStep → Fault) (source : Place) (files : Dir) : Activating Unit := do
  files.toList.forM fun entry =>
    step (faults (.removeFile entry.1)) "failed to remove restore source after copy fallback"
      (Disk.change source (.removeFile entry.1))
  step (faults .removeDb) "failed to remove restore source after copy fallback" (Disk.remove source)

/-- The directory that a copy goes to, which is created unless it exists. -/
def createDirectory (activation : String) (place : Place) (disk : RestoreDisk) : RestoreDisk :=
  match disk place with
  | none => disk.put place (.dir ∅ (some activation))
  | some _ => disk

/-- What `move_path_with_copy_fallback` does with the source when it could not be renamed. -/
def copyFallback (faults : ActivationStep → Fault) (activation : String) (source destination : Place) :
    Option Item → Activating Unit
  | some (.dir files _) => do
    step (faults .createDb) "failed to create restore destination" (createDirectory activation destination)
    copyFiles faults destination files
    removeFiles faults source files
  | some (.file content) => do
    step (faults (.writeFile "")) "failed to move restore path" (Disk.put destination (.file content))
    step (faults .removeDb) "failed to remove restore source after copy fallback" (Disk.remove source)
  | none => throw (.failed "failed to move restore path")

def movePathWithCopyFallback (faults : ActivationStep → Fault) (activation : String) (source destination : Place) :
    Activating Unit := do
  step (faults .createDestinationParent) ioError id
  let disk ← get
  let renamed ← if renames (disk source) (disk destination) then
      tryStep (faults .renameDb) fun disk => (disk.rename source destination).change destination (.place activation)
    else pure false
  if renamed then pure () else copyFallback faults activation source destination (disk source)

/-- The paths of the target that are preserved. -/
def preservedPaths : List String :=
  ["db", "chain/blockchain", "chain/genesis_data.json", "jsonrpc/descriptors/koinos_descriptors.pb",
    ".teleno-restored-config.yml"]

def markerPath : String := ".backup-just-restored"

def readStageMetadata (formats : Formats) (stagingDir : String) : Activating StageMetadata := do
  match (← get) (.staging stagingDir ".teleno-restore-stage.json") with
  | some (.file content) =>
    match formats.parseStage content with
    | some metadata => pure metadata
    | none => throw (.failed "invalid restore stage metadata")
  | _ => throw (.failed "failed to read restore stage metadata")

/-- Once the database is put aside, the other paths keep what each of their renames keeps. -/
theorem ends_preserveExistingPaths {faults : ActivationStep → Fault} {name : String} {holds cut : RestoreDisk → Prop}
    (renames : ∀ path disk, path ≠ "db" → holds disk → holds (disk.rename (.target path) (.preRestore name path)))
    (interrupts : ∀ disk, holds disk → cut disk) {paths : List String} (others : ∀ path ∈ paths, path ≠ "db")
    {disk : RestoreDisk} (start : holds disk) :
    Ends (preserveExistingPaths faults name paths) disk (fun _ => holds) cut := by
  induction paths generalizing disk with
  | nil => exact .pure start
  | cons path rest ih =>
    obtain ⟨other, others⟩ := List.forall_mem_cons.mp others
    refine Ends.bind ?_ fun _ _ holds => (ih others holds).bind fun _ _ holds => .pure holds
    rw [preserveExistingPath]
    refine .get_bind ?_
    split_ifs
    · exact .pure start
    · refine ends_step_bind ?_ (interrupts disk start)
      exact ends_step_bind (.pure (renames path disk other start)) (interrupts disk start)

theorem ends_readStageMetadata {formats : Formats} {stagingDir : String} {disk : RestoreDisk}
    {cut : RestoreDisk → Prop} (interrupts : cut disk) :
    Ends (readStageMetadata formats stagingDir) disk (fun _ disk' => disk' = disk) cut := by
  rw [readStageMetadata]
  refine .get_bind ?_
  split
  · split
    · exact .pure rfl
    · exact .throw interrupts
  · exact .throw interrupts

/-- The checks of an activation and the creation of its preservation directory. -/
def prepareActivation (formats : Formats) (call : ActivationCall) : Activating RestoreActivationResult := do
  Exec.require (call.stagingDir ≠ "") (.failed "restore staging directory is required for activation")
  let disk ← get
  Exec.require (disk (.staging call.stagingDir "RESTORE_STAGE_COMPLETE")).isSome
    (.failed ("restore staging directory is not complete: " ++ call.stagingDir))
  Exec.require ((disk (.staging call.stagingDir "db")).any Item.isDirectory)
    (.failed ("restore staging directory does not contain a db directory: " ++ call.stagingDir))
  let metadata ← readStageMetadata formats call.stagingDir
  Exec.require (!rocksdbLockIsHeld call.lockHeld (disk (.target "db")))
    (.failed "target RocksDB appears to be locked by a running node")
  let preRestoreDir := call.timestamp ++ "-" ++ safePathFragment metadata.backupId
  Exec.require (disk (.preRestoreDir preRestoreDir)).isNone
    (.failed ("restore preservation directory already exists: " ++ preRestoreDir))
  step (call.faults .createTarget) ioError id
  step (call.faults .createPreRestore) ioError (Disk.put (.preRestoreDir preRestoreDir) (.dir ∅ none))
  let preserved ← preserveExistingPaths call.faults preRestoreDir preservedPaths
  pure { backupId := metadata.backupId, preRestoreDir := preRestoreDir, preservedPaths := preserved,
         startAsObserverFirst := metadata.startAsObserverFirst }

def copyStagedConfig (faults : ActivationStep → Fault) (stagingDir : String) : Activating Unit := do
  match (← get) (.staging stagingDir "config.yml") with
  | some (.file content) =>
    step (faults .copyConfig) ioError (Disk.put (.target ".teleno-restored-config.yml") (.file content))
  | _ => pure ()

/-- The part of an activation from the move of the database on. -/
def installStaged (formats : Formats) (call : ActivationCall) (result : RestoreActivationResult) : Activating Unit := do
  movePathWithCopyFallback call.faults result.preRestoreDir (.staging call.stagingDir "db") (.target "db")
  copyStagedRuntimeFile call.faults call.stagingDir "chain/genesis_data.json"
  copyStagedRuntimeFile call.faults call.stagingDir "jsonrpc/descriptors/koinos_descriptors.pb"
  copyStagedConfig call.faults call.stagingDir
  step (call.faults .writeManifest) "failed to write temporary file"
    (Disk.put (.target ".teleno-restore-manifest.json") (.file (formats.manifest result)))
  step (call.faults .writeMarker) "failed to write temporary file"
    (Disk.put (.target markerPath) (.file (contents ("backup_id=" ++ result.backupId ++
      "\nblock_producer_disabled_on_first_start=true\nstart_as_observer_first=true\n"))))

def activateStagedRestoreSnapshot (formats : Formats) (call : ActivationCall) :
    Activating RestoreActivationResult := do
  let result ← prepareActivation formats call
  installStaged formats call result
  pure result

/-- Formats that read every stage as the same one and write empty manifests. -/
def plainFormats : Formats where
  parseStage _ := some { backupId := "b" }
  manifest _ := []
  parseIntent _ := none
  isBasedir _ := true

/-- A database of two files. -/
def sampleDb : Dir := (∅ : Dir).insert "a" [1] |>.insert "b" [2]

/-- A staging directory `s` with a complete database. -/
def sampleDisk : RestoreDisk
  | .staging "s" "RESTORE_STAGE_COMPLETE" => some (.file [])
  | .staging "s" ".teleno-restore-stage.json" => some (.file [])
  | .staging "s" "db" => some (.dir sampleDb none)
  | _ => none

def plainCall : ActivationCall := { stagingDir := "s", timestamp := "1" }

end Teleno.Backup
