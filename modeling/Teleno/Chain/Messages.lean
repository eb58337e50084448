import Teleno.StateDb.Backend

/-! # Protocol messages, receipts and exceptions of the chain

Blocks and transactions carry the fields that block application reads. An exception is one of the
classes of `exceptions.hpp` with its formatted message and the captured JSON values. A handler only
looks at the branch of the class hierarchy: reversions, failures, the success exception that ends a
contract, the remaining `koinos::exception`s, and foreign `std::exception`s. The exceptions of the state
database are reversions.
-/

namespace Teleno.Chain

/-- The bytes of a message text. -/
def text (message : String) : Bytes := message.toUTF8.toList

/-- `reversion_exception` and its subclasses; `other` stands for any further error code. -/
inductive ReversionKind where
  | reversion
  | invalidContract
  | insufficientPrivileges
  | insufficientRc
  | insufficientReturnBuffer
  | unknownThunk
  | unknownOperation
  | readOnlyContext
  | systemAuthorizationFailure
  | internalError
  | stateDb (error : StateDb.StateDbError)
  | other (code : ℤ)
deriving DecidableEq, Repr

/-- `failure_exception` and its subclasses; `other` stands for any further error code. -/
inductive FailureKind where
  | failure
  | authorizationFailure
  | invalidNonce
  | invalidSignature
  | malformedBlock
  | unexpectedReceipt
  | unknownHashCode
  | unknownDsa
  | operationNotFound
  | networkBandwidthLimitExceeded
  | computeBandwidthLimitExceeded
  | diskStorageLimitExceeded
  | other (code : ℤ)
deriving DecidableEq, Repr

/-- The class of an exception. -/
inductive ExceptionType where
  | reversion (kind : ReversionKind)
  | failure (kind : FailureKind)
  | success
  | otherKoinos (code : ℤ)
  | foreign
deriving DecidableEq, Repr

/-- A value captured with an exception. -/
inductive Json where
  | number (value : ℕ)
  | string (value : Bytes)
deriving DecidableEq, Repr

/-- An exception in flight. -/
structure ChainException where
  type : ExceptionType
  message : Bytes
  json : List (String × Json) := []
deriving DecidableEq, Repr

namespace ChainException

/-- Caught by `catch( const failure_exception& )`. -/
def isFailure (e : ChainException) : Bool :=
  match e.type with
  | .failure _ => true
  | _ => false

/-- Caught by `catch( const reversion_exception& )`. -/
def isReversion (e : ChainException) : Bool :=
  match e.type with
  | .reversion _ => true
  | _ => false

/-- Caught by `catch( const koinos::exception& )`. -/
def isKoinos (e : ChainException) : Bool :=
  match e.type with
  | .foreign => false
  | _ => true

/-- Add a captured value. -/
def capture (e : ChainException) (name : String) (value : Bytes) : ChainException :=
  { e with json := e.json ++ [(name, .string value)] }

variable {e : ChainException}

theorem isFailure_iff : e.isFailure ↔ ∃ kind, e.type = .failure kind := by
  unfold isFailure
  cases e.type <;> simp

theorem isReversion_iff : e.isReversion ↔ ∃ kind, e.type = .reversion kind := by
  unfold isReversion
  cases e.type <;> simp

theorem not_isReversion_of_isFailure (failure : e.isFailure) : ¬ e.isReversion := by
  obtain ⟨kind, type⟩ := isFailure_iff.mp failure
  rw [isReversion, type]
  exact Bool.false_ne_true

theorem isFailure_capture (e : ChainException) (name : String) (value : Bytes) :
    (e.capture name value).isFailure = e.isFailure := rfl

end ChainException

structure UploadContractOperation where
  contractId : Bytes := []
  bytecode : Bytes := []
  abi : Bytes := []
  authorizesCallContract : Bool := false
  authorizesTransactionApplication : Bool := false
  authorizesUploadContract : Bool := false
deriving DecidableEq

structure CallContractOperation where
  contractId : Bytes := []
  entryPoint : UInt32 := 0
  args : Bytes := []
deriving DecidableEq

/-- `protocol::system_call_target`. -/
inductive SystemCallTarget where
  | thunk (thunkId : UInt32)
  | systemCallBundle (contractId : Bytes) (entryPoint : UInt32)
deriving DecidableEq

structure SetSystemCallOperation where
  callId : UInt32
  target : SystemCallTarget
deriving DecidableEq

structure SetSystemContractOperation where
  contractId : Bytes := []
  systemContract : Bool := false
deriving DecidableEq

/-- `protocol::operation`; `unset` has none of the known alternatives. -/
inductive Operation where
  | uploadContract (o : UploadContractOperation)
  | callContract (o : CallContractOperation)
  | setSystemCall (o : SetSystemCallOperation)
  | setSystemContract (o : SetSystemContractOperation)
  | unset
deriving DecidableEq

structure TransactionHeader where
  chainId : Bytes := []
  rcLimit : UInt64 := 0
  nonce : Bytes := []
  operationMerkleRoot : Bytes := []
  payer : Bytes := []
  payee : Bytes := []
deriving DecidableEq

structure Transaction where
  id : Bytes := []
  header : TransactionHeader := {}
  operations : List Operation := []
  signatures : List Bytes := []
deriving DecidableEq

structure Block where
  id : Bytes := []
  header : BlockHeader := {}
  transactions : List Transaction := []
  signature : Bytes := []
deriving DecidableEq

/-- `protocol::event_data`. -/
structure EventData where
  sequence : UInt32 := 0
  source : Bytes := []
  name : Bytes := []
  data : Bytes := []
  impacted : List Bytes := []
deriving DecidableEq

structure TransactionReceipt where
  id : Bytes := []
  payer : Bytes := []
  maxPayerRc : UInt64 := 0
  rcLimit : UInt64 := 0
  rcUsed : UInt64 := 0
  diskStorageUsed : UInt64 := 0
  networkBandwidthUsed : UInt64 := 0
  computeBandwidthUsed : UInt64 := 0
  reverted : Bool := false
  events : List EventData := []
  logs : List Bytes := []
  stateDeltaEntries : List StateDeltaEntry := []
deriving DecidableEq

structure BlockReceipt where
  id : Bytes := []
  height : ℕ := 0
  diskStorageUsed : UInt64 := 0
  networkBandwidthUsed : UInt64 := 0
  computeBandwidthUsed : UInt64 := 0
  diskStorageCharged : UInt64 := 0
  networkBandwidthCharged : UInt64 := 0
  computeBandwidthCharged : UInt64 := 0
  events : List EventData := []
  logs : List Bytes := []
  stateDeltaEntries : List StateDeltaEntry := []
  transactionReceipts : List TransactionReceipt := []
deriving DecidableEq

def BlockReceipt.addTransactionReceipt (block : BlockReceipt) (receipt : TransactionReceipt) : BlockReceipt :=
  { block with transactionReceipts := block.transactionReceipts ++ [receipt] }

/-- `std::variant< std::monostate, protocol::block_receipt, protocol::transaction_receipt >`. -/
inductive Receipt where
  | none
  | block (receipt : BlockReceipt)
  | transaction (receipt : TransactionReceipt)
deriving DecidableEq

end Teleno.Chain
