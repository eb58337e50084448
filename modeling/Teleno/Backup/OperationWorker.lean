import Mathlib.Logic.Function.Basic
import Teleno.Library.Machine

/-! # The worker thread of the backup service

`start_*_async` accepts an operation in one section, marks the worker as active in another, creates a thread and assigns
it to `_worker` without holding the mutex. The thread runs the operation, whose end clears `_running`, and clears
`_worker_active` in a section of its own. Every section that holds the mutex, every creation and every assignment of a
thread is one step, and any thread may take the next one.
-/

namespace Teleno.Backup

open Library

/-- The `start_*_async` functions; `start_local_snapshot_async` is a configured backup without upload. -/
inductive OperationKind where
  | configuredBackup (uploadRemote : Bool)
  | uploadLatest
  | delete
  | restoreFetch
  | publicRestoreFetch
deriving DecidableEq

inductive BackupOperationState where
  | idle
  | running
  | succeeded
  | failed
deriving DecidableEq

/-- The fields of the status that starting, finishing and cancelling write. -/
structure BackupOperationStatus where
  operationKind : Option OperationKind := none
  state : BackupOperationState := .idle
  cancelRequested : Bool := false

/-- How far an accepted start is. -/
inductive Launch where
  | marking
  | creating
  | assigning
  | failing
  | unmarking
deriving DecidableEq

/-- Which section a calling thread is about to enter. -/
inductive CallerState where
  | idle
  | joiningFinished (kind : OperationKind)
  | joinsFinished (kind : OperationKind) (thread : ℕ)
  | validating (kind : OperationKind)
  | beginning (kind : OperationKind)
  | launching (operation : ℕ) (stage : Launch)
  | returning
  | waiting
  | joinsWorker (thread : ℕ)

/-- An accepted operation: its thread is yet to be created, could not be created, or is at one of its sections. -/
inductive WorkerState where
  | unaccepted
  | preparing
  | refused
  | ready
  | executing
  | clearing
  | exited
deriving DecidableEq

/-- The service and the threads that use it. Operations are numbered as they are accepted, and a thread has the number
of its operation. -/
structure BackupService where
  running : Bool := false
  workerActive : Bool := false
  status : BackupOperationStatus := {}
  /-- The thread that `_worker` holds, if it is joinable. -/
  worker : Option ℕ := none
  callers : ℕ → CallerState := fun _ => .idle
  workers : ℕ → WorkerState := fun _ => .unaccepted
  accepted : ℕ := 0
  /-- The operations whose bodies have begun, the last one first. -/
  bodies : List ℕ := []
  /-- `std::terminate` was called. -/
  terminated : Bool := false

namespace BackupService

def setCaller (service : BackupService) (caller : ℕ) (state : CallerState) : BackupService :=
  { service with callers := Function.update service.callers caller state }

def setWorker (service : BackupService) (operation : ℕ) (state : WorkerState) : BackupService :=
  { service with workers := Function.update service.workers operation state }

/-- `join_finished_worker` takes the thread if it is joinable and not active. -/
def joinFinishedWorker (service : BackupService) (caller : ℕ) (kind : OperationKind) : BackupService :=
  match service.worker with
  | some thread =>
    if service.workerActive then service.setCaller caller (.validating kind)
    else { service.setCaller caller (.joinsFinished kind thread) with worker := none }
  | none => service.setCaller caller (.validating kind)

/-- An operation is accepted unless one is running. -/
def beginOperation (service : BackupService) (caller : ℕ) (kind : OperationKind) : BackupService :=
  if service.running then service.setCaller caller .idle
  else
    { (service.setCaller caller (.launching service.accepted .marking)).setWorker service.accepted .preparing with
      running := true
      status := { operationKind := some kind, state := .running }
      accepted := service.accepted + 1 }

def finishOperationSuccess (service : BackupService) : BackupService :=
  { service with running := false, status := { service.status with state := .succeeded, cancelRequested := false } }

def finishOperationFailure (service : BackupService) : BackupService :=
  { service with running := false, status := { service.status with state := .failed } }

/-- The construction of the thread, which may throw. -/
def createThread (service : BackupService) (caller operation : ℕ) (created : Bool) : BackupService :=
  if created then (service.setCaller caller (.launching operation .assigning)).setWorker operation .ready
  else (service.setCaller caller (.launching operation .failing)).setWorker operation .refused

/-- The assignment to `_worker`, which terminates the process if `_worker` is joinable. -/
def assignWorker (service : BackupService) (caller operation : ℕ) : BackupService :=
  if service.worker.isSome then { service with terminated := true }
  else { service.setCaller caller .returning with worker := some operation }

/-- `wait_for_current_operation` takes the thread if it is joinable. -/
def takeWorker (service : BackupService) (caller : ℕ) : BackupService :=
  match service.worker with
  | some thread => { service.setCaller caller (.joinsWorker thread) with worker := none }
  | none => service.setCaller caller .idle

/-- `join` returns when the thread has exited. -/
def joins (service : BackupService) (caller thread : ℕ) (next : CallerState) : Option BackupService :=
  if service.workers thread = .exited then some (service.setCaller caller next) else none

/-- The next section of a calling thread. The choice says whether the request is valid, and whether a thread can be
created. -/
def advance (service : BackupService) (caller : ℕ) (choice : Bool) : Option BackupService :=
  match service.callers caller with
  | .idle => none
  | .joiningFinished kind => some (service.joinFinishedWorker caller kind)
  | .joinsFinished kind thread => service.joins caller thread (.validating kind)
  | .validating kind => some (service.setCaller caller (if choice then .beginning kind else .idle))
  | .beginning kind => some (service.beginOperation caller kind)
  | .launching operation .marking =>
    some { service.setCaller caller (.launching operation .creating) with workerActive := true }
  | .launching operation .creating => some (service.createThread caller operation choice)
  | .launching operation .assigning => some (service.assignWorker caller operation)
  | .launching operation .failing =>
    some (service.finishOperationFailure.setCaller caller (.launching operation .unmarking))
  | .launching _ .unmarking => some { service.setCaller caller .idle with workerActive := false }
  | .returning => some (service.setCaller caller .idle)
  | .waiting => some (service.takeWorker caller)
  | .joinsWorker thread => service.joins caller thread .idle

/-- The next section of a worker thread: its body begins, ends in success or failure, or has ended. -/
def work (service : BackupService) (operation : ℕ) (succeeded : Bool) : Option BackupService :=
  match service.workers operation with
  | .ready => some { service.setWorker operation .executing with bodies := operation :: service.bodies }
  | .executing => some ((if succeeded then service.finishOperationSuccess
      else service.finishOperationFailure).setWorker operation .clearing)
  | .clearing => some { service.setWorker operation .exited with workerActive := false }
  | _ => none

def cancelCurrentOperation (service : BackupService) : BackupService :=
  if service.running then { service with status := { service.status with cancelRequested := true } } else service

/-- A thread that is not in a call makes one. -/
def enter (service : BackupService) (caller : ℕ) (state : CallerState) : Option BackupService :=
  match service.callers caller with
  | .idle => some (service.setCaller caller state)
  | _ => none

end BackupService

inductive ServiceStep where
  | start (caller : ℕ) (kind : OperationKind)
  | wait (caller : ℕ)
  | cancel
  | caller (caller : ℕ) (choice : Bool)
  | worker (operation : ℕ) (succeeded : Bool)

/-- One step of one thread. Nothing happens after `std::terminate`. -/
def BackupService.step (service : BackupService) (action : ServiceStep) : Option BackupService :=
  if service.terminated then none
  else match action with
    | .start caller kind => service.enter caller (.joiningFinished kind)
    | .wait caller => service.enter caller .waiting
    | .cancel => some service.cancelCurrentOperation
    | .caller caller choice => service.advance caller choice
    | .worker operation succeeded => service.work operation succeeded

/-- The runs of the service from its construction. -/
def serviceMachine : Machine BackupService ServiceStep where
  init service := service = {}
  step service action service' := service.step action = some service'

end Teleno.Backup
