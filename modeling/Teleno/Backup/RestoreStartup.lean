import Teleno.Backup.Activation

/-! # Startup after a restore

A node that starts activates a pending request first and opens its database. The startup policy turns the restore
marker into a durable hold and keeps the block producer disabled while the hold is there; a later start with
explicit activation of the producer releases it.
-/

namespace Teleno.Backup

open Library

/-- The parts of `NodeConfig` that the policy reads and writes. -/
structure NodeConfig where
  blockProducer : Bool
  verifyBlocks : Bool := true
deriving DecidableEq

structure RestoreStartupPolicyResult where
  restoreMarkerFound : Bool := false
  producerRecoveryHoldActive : Bool := false
  producerRecoveryHoldReleased : Bool := false
  blockProducerWasEnabled : Bool := false
  verifyBlocks : Bool := false
deriving DecidableEq

/-- The file system operations of the policy. -/
inductive PolicyStep where
  | createHold
  | syncHold
  | syncCreated
  | removeMarker
  | syncRemoved
  | removeHold
  | syncReleased
deriving DecidableEq

def holdPath : String := ".backup-observer-recovery"

def intentPath : String := ".teleno-restore-activation-request.json"

def applyRestoreStartupPolicy (faults : PolicyStep → Fault) (config : NodeConfig) (explicitProducerActivation : Bool) :
    Activating (RestoreStartupPolicyResult × NodeConfig) := do
  let disk ← get
  let found := (disk (.target markerPath)).isSome
  let hold := (disk (.target holdPath)).isSome
  let result : RestoreStartupPolicyResult :=
    { restoreMarkerFound := found, producerRecoveryHoldActive := hold, verifyBlocks := config.verifyBlocks }
  if found then
    step (faults .createHold) "failed to create restore producer recovery hold"
      (Disk.put (.target holdPath) (.file (contents "observer validation required before block production\n")))
    step (faults .syncHold) "failed to fsync restore recovery path" id
    step (faults .syncCreated) "failed to fsync restore recovery path" id
    step (faults .removeMarker) ioError (Disk.remove (.target markerPath))
    step (faults .syncRemoved) "failed to fsync restore recovery path" id
    pure ({ result with producerRecoveryHoldActive := true, blockProducerWasEnabled := config.blockProducer },
      { config with blockProducer := false })
  else if hold && explicitProducerActivation then
    step (faults .removeHold) ioError (Disk.remove (.target holdPath))
    step (faults .syncReleased) "failed to fsync restore recovery path" id
    pure ({ result with producerRecoveryHoldActive := false, producerRecoveryHoldReleased := true }, config)
  else if hold then
    pure ({ result with blockProducerWasEnabled := config.blockProducer }, { config with blockProducer := false })
  else pure (result, config)

def readPendingRestoreActivationRequest (formats : Formats) : Activating (Option RestoreActivationIntent) := do
  match (← get) (.target intentPath) with
  | none => pure none
  | some (.dir _ _) => throw (.failed "failed to read restore activation intent")
  | some (.file content) =>
    match formats.parseIntent content with
    | none => throw (.failed "failed to read restore activation intent")
    | some intent => do
      Exec.require (intent.format = "teleno-native-restore-activation-request")
        (.failed "invalid restore activation intent format")
      Exec.require (intent.version = 1) (.failed "unsupported restore activation intent version")
      Exec.require (intent.targetBasedir ≠ "") (.failed "restore activation intent is missing target_basedir")
      Exec.require (intent.stagingDir ≠ "") (.failed "restore activation intent is missing staging_dir")
      Exec.require (formats.isBasedir intent.targetBasedir)
        (.failed ("restore activation intent target does not match this basedir: " ++ intent.targetBasedir))
      pure (some intent)

/-- The environment of one start: the configuration, whether the command line enables the producer, and what happens
to each file system operation. -/
structure Startup where
  config : NodeConfig
  explicitProducerActivation : Bool := false
  timestamp : String := ""
  lockHeld : Bool := false
  activationFaults : ActivationStep → Fault := fun _ => .none
  removeIntent : Fault := .none
  openDatabase : Fault := .none
  policyFaults : PolicyStep → Fault := fun _ => .none

/-- `activate_pending_restore_activation_request`, with the environment of a start. -/
def activatePendingRestoreActivationRequest (formats : Formats) (start : Startup) : Activating Unit := do
  match ← readPendingRestoreActivationRequest formats with
  | none => pure ()
  | some intent =>
    let _ ← activateStagedRestoreSnapshot formats
      { stagingDir := intent.stagingDir, timestamp := start.timestamp, lockHeld := start.lockHeld,
        faults := start.activationFaults }
    step start.removeIntent ioError (Disk.remove (.target intentPath))

/-- A database is created where there is none. -/
def openOrCreate (disk : RestoreDisk) : RestoreDisk :=
  match disk (.target "db") with
  | none => disk.put (.target "db") (.dir ∅ none)
  | some _ => disk

/-- A start of the node, up to the configuration that it runs with. -/
def startNode (formats : Formats) (start : Startup) : Activating NodeConfig := do
  activatePendingRestoreActivationRequest formats start
  step start.openDatabase ioError openOrCreate
  let policy ← applyRestoreStartupPolicy start.policyFaults start.config start.explicitProducerActivation
  pure policy.2

end Teleno.Backup
