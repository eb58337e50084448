import Teleno.StateDb.View
import Teleno.Chain.SystemCalls

/-! # What the host of contracts works with

A system call is named by a `SystemCallId` and has the arguments and the result of the thunk that is
registered for it. A contract is what its code does with the host: the calls it makes one after the other,
depending on the answers, and how it ends. The libraries below the host (protobuf, cryptography, the VM)
are the fields of a `Platform`.

The host keeps the result of the last `exit` and its caches in `Host`, together with a journal of what
happened, which no function reads: how every system call was resolved and what it cost, which objects were
written on whose request, and which contracts ran.
-/

namespace Teleno.Chain

open Library StateDb

/-- `system_call_id`. -/
inductive SystemCallId where
  | getHeadInfo
  | applyBlock
  | applyTransaction
  | applyUploadContractOperation
  | applyCallContractOperation
  | applySetSystemCallOperation
  | applySetSystemContractOperation
  | preBlockCallback
  | postBlockCallback
  | preTransactionCallback
  | postTransactionCallback
  | getChainId
  | processBlockSignature
  | getTransaction
  | getTransactionField
  | getBlock
  | getBlockField
  | getLastIrreversibleBlock
  | getAccountNonce
  | verifyAccountNonce
  | setAccountNonce
  | checkSystemAuthority
  | getOperation
  | getAccountRc
  | consumeAccountRc
  | getResourceLimits
  | consumeBlockResources
  | putObject
  | removeObject
  | getObject
  | getNextObject
  | getPrevObject
  | log
  | event
  | hash
  | recoverPublicKey
  | verifyMerkleRoot
  | verifySignature
  | verifyVrfProof
  | call
  | exit
  | getArguments
  | getContractId
  | getCaller
  | checkAuthority
  | nop
deriving DecidableEq

/-- `authorize_entrypoint`. -/
def authorizeEntrypoint : UInt32 := 0x4a2dbd90

inductive Dsa where
  | ecdsaSecp256k1
  | other (number : ℕ)
deriving DecidableEq

/-- `error_data`. -/
structure ErrorData where
  message : Bytes := []
  details : Bytes := []
deriving DecidableEq

/-- `chain::result`. -/
inductive ResultValue where
  | unset
  | object (bytes : Bytes)
  | error (data : ErrorData)
deriving DecidableEq

namespace ResultValue

/-- The accessors of a protobuf `oneof` answer with a default for the other alternatives. -/
def getObject : ResultValue → Bytes
  | .object bytes => bytes
  | _ => []

def getError : ResultValue → ErrorData
  | .error data => data
  | _ => {}

end ResultValue

structure ExecutionResult where
  code : ℤ := 0
  res : ResultValue := .unset
deriving DecidableEq

/-- `contract_metadata_object`. -/
structure ContractMetadata where
  hash : Bytes := []
  system : Bool := false
  authorizesCallContract : Bool := false
  authorizesTransactionApplication : Bool := false
  authorizesUploadContract : Bool := false
deriving DecidableEq

/-- `head_info`. -/
structure HeadInfo where
  id : Bytes
  previous : Bytes
  height : ℕ
  lastIrreversibleBlock : ℕ
  headBlockTime : ℕ

/-- `caller_data`. -/
structure CallerData where
  caller : Bytes
  callerPrivilege : Privilege

/-- `argument_data`. -/
structure ArgumentData where
  entryPoint : UInt32
  arguments : Bytes

namespace SystemCallId

/-- The enumerator's name, under which its compute bandwidth is registered. -/
def name : SystemCallId → String
  | getHeadInfo => "get_head_info"
  | applyBlock => "apply_block"
  | applyTransaction => "apply_transaction"
  | applyUploadContractOperation => "apply_upload_contract_operation"
  | applyCallContractOperation => "apply_call_contract_operation"
  | applySetSystemCallOperation => "apply_set_system_call_operation"
  | applySetSystemContractOperation => "apply_set_system_contract_operation"
  | preBlockCallback => "pre_block_callback"
  | postBlockCallback => "post_block_callback"
  | preTransactionCallback => "pre_transaction_callback"
  | postTransactionCallback => "post_transaction_callback"
  | getChainId => "get_chain_id"
  | processBlockSignature => "process_block_signature"
  | getTransaction => "get_transaction"
  | getTransactionField => "get_transaction_field"
  | getBlock => "get_block"
  | getBlockField => "get_block_field"
  | getLastIrreversibleBlock => "get_last_irreversible_block"
  | getAccountNonce => "get_account_nonce"
  | verifyAccountNonce => "verify_account_nonce"
  | setAccountNonce => "set_account_nonce"
  | checkSystemAuthority => "check_system_authority"
  | getOperation => "get_operation"
  | getAccountRc => "get_account_rc"
  | consumeAccountRc => "consume_account_rc"
  | getResourceLimits => "get_resource_limits"
  | consumeBlockResources => "consume_block_resources"
  | putObject => "put_object"
  | removeObject => "remove_object"
  | getObject => "get_object"
  | getNextObject => "get_next_object"
  | getPrevObject => "get_prev_object"
  | log => "log"
  | event => "event"
  | hash => "hash"
  | recoverPublicKey => "recover_public_key"
  | verifyMerkleRoot => "verify_merkle_root"
  | verifySignature => "verify_signature"
  | verifyVrfProof => "verify_vrf_proof"
  | call => "call"
  | exit => "exit"
  | getArguments => "get_arguments"
  | getContractId => "get_contract_id"
  | getCaller => "get_caller"
  | checkAuthority => "check_authority"
  | nop => "nop"

/-- `thunk_is_genesis`. -/
def isGenesis (id : SystemCallId) : Bool := id ≠ nop

/-- The thunks without arguments, result and effect. -/
def isCallback (id : SystemCallId) : Bool :=
  id ∈ [preBlockCallback, postBlockCallback, preTransactionCallback, postTransactionCallback, nop]

/-- The fields of the arguments message. -/
abbrev Args : SystemCallId → Type
  | applyBlock => Block
  | applyTransaction => Transaction
  | applyUploadContractOperation => UploadContractOperation
  | applyCallContractOperation => CallContractOperation
  | applySetSystemCallOperation => SetSystemCallOperation
  | applySetSystemContractOperation => SetSystemContractOperation
  | processBlockSignature => Bytes × BlockHeader × Bytes
  | getTransactionField => Bytes
  | getBlockField => Bytes
  | getAccountNonce => Bytes
  | verifyAccountNonce => Bytes × Bytes
  | setAccountNonce => Bytes × Bytes
  | getAccountRc => Bytes
  | consumeAccountRc => Bytes × UInt64
  | consumeBlockResources => UInt64 × UInt64 × UInt64
  | putObject => ObjectSpace × Bytes × Bytes
  | removeObject => ObjectSpace × Bytes
  | getObject => ObjectSpace × Bytes
  | getNextObject => ObjectSpace × Bytes
  | getPrevObject => ObjectSpace × Bytes
  | log => Bytes
  | event => Bytes × Bytes × List Bytes
  | hash => ℕ × Bytes × ℕ
  | recoverPublicKey => Dsa × Bytes × Bytes × Bool
  | verifyMerkleRoot => Bytes × List Bytes
  | verifySignature => Dsa × Bytes × Bytes × Bytes × Bool
  | verifyVrfProof => Dsa × Bytes × Bytes × Bytes × Bytes
  | call => Bytes × UInt32 × Bytes
  | exit => ℤ × ResultValue
  | checkAuthority => AuthorizationType × Bytes × Bytes
  | _ => Unit

/-- The value of the result message. -/
abbrev Result : SystemCallId → Type
  | getHeadInfo => HeadInfo
  | getChainId => Bytes
  | processBlockSignature => Bool
  | getTransaction => Transaction
  | getTransactionField => Bytes
  | getBlock => Block
  | getBlockField => Bytes
  | getLastIrreversibleBlock => ℕ
  | getAccountNonce => Bytes
  | verifyAccountNonce => Bool
  | checkSystemAuthority => Bool
  | getOperation => Operation
  | getAccountRc => UInt64
  | consumeAccountRc => Bool
  | getResourceLimits => ResourceLimitData
  | consumeBlockResources => Bool
  | getObject => Option Bytes
  | getNextObject => Option (Bytes × Bytes)
  | getPrevObject => Option (Bytes × Bytes)
  | hash => Bytes
  | recoverPublicKey => Bytes
  | verifyMerkleRoot => Bool
  | verifySignature => Bool
  | verifyVrfProof => Bool
  | call => Bytes
  | getArguments => ArgumentData
  | getContractId => Bytes
  | getCaller => CallerData
  | checkAuthority => Bool
  | _ => Unit

/-- The thunks whose result message is never serialized. -/
def isVoid (id : SystemCallId) : Bool :=
  id.isCallback || id ∈ [applyBlock, applyTransaction, applyUploadContractOperation, applyCallContractOperation,
    applySetSystemCallOperation, applySetSystemContractOperation, setAccountNonce, putObject, removeObject, log,
    event, exit]

end SystemCallId

/-- The object spaces of the system. -/
inductive SystemSpace where
  | contractBytecode
  | contractMetadata
  | systemCallDispatch
  | metadata
  | transactionNonce
deriving DecidableEq

/-- The calls of `abstract_host_api`. -/
inductive HostCall where
  | invokeThunk (tid : UInt32) (retLen : ℕ) (args : Bytes)
  | invokeSystemCall (sid : UInt32) (retLen : ℕ) (args : Bytes)
  | getMeterTicks
  | useMeterTicks (ticks : UInt64)

/-- The value a host call returns and what it writes to the return buffer. -/
structure Reply where
  value : ℤ := 0
  written : Bytes := []

/-- What running a contract does: it returns or the VM throws, or it makes a host call and goes on with the
answer. When the call throws, the VM still has its say, such as charging the ticks used so far, before it
passes an exception on. -/
inductive Contract where
  | done (outcome : Option ChainException)
  | host (call : HostCall) (next : Reply → Contract) (unwind : ChainException → Contract)

/-- An entry of `system_call_table`. -/
inductive CallTarget where
  | thunk (thunkId : UInt32) (isOverride : Bool)
  | contract (contractId bytecode : Bytes) (entryPoint : UInt32) (metadata : ContractMetadata)
deriving DecidableEq

/-- A write or removal of an object by a system call: under which stack, where, which object was visible
before, the change in bytes, and the meter and the session that are then charged for it. -/
structure Write where
  stack : List StackFrame
  node : ℕ
  space : ObjectSpace
  key : Bytes
  value : Option Bytes
  old : Option Bytes
  bytes : ℤ
  meter : ResourceMeter
  session : Option PayerSession
deriving DecidableEq

/-- Whether the meter accepts the change in bytes. -/
def Write.accepted (write : Write) : Bool :=
  (write.meter.useDiskStorage write.session (Int64.ofInt write.bytes)).isOk

/-- What the journal notes: the resolution of a system call, the price of an operation, a write, a contract
that starts with the metadata stored for it on the current node, and a contract's call to apply a block or a
transaction. -/
inductive Incident where
  | resolved (sid : UInt32) (target : CallTarget)
  | priced (name : String) (compute : UInt64)
  | wrote (write : Write)
  | ran (frame : StackFrame) (metadata : Option Bytes)
  | applied
deriving DecidableEq

/-- The rest of `execution_context`. -/
structure Host where
  result : ExecutionResult := {}
  computeBandwidth : Option (List (String × UInt64)) := none
  descriptorPool : Option Bytes := none
  systemCallTable : UInt32 → Option CallTarget := fun _ => none
  failedTransactionIndices : List ℕ := []
  journal : List Incident := []

abbrev HostM := WorldM Host

/-- The libraries below the host. Parsing a message may throw, except for the arguments and results of
system calls, where the outcome of parsing is ignored. -/
structure Platform where
  crypto : Crypto
  codec : KeyCodec
  encoding : Encoding
  /-- The values of `system_call_id`. -/
  number : SystemCallId → UInt32
  ofNumber : UInt32 → Option SystemCallId
  ofNumber_number : ∀ id, ofNumber (number id) = some id
  /-- The values of `system_space_id`. -/
  spaceId : SystemSpace → ℕ
  spaceId_injective : Function.Injective spaceId
  errorCode : ExceptionType → ℤ
  errorBytes : ChainException → Bytes
  parseArgs : (id : SystemCallId) → Bytes → id.Args
  argsBytes : (id : SystemCallId) → id.Args → Bytes
  parseResult : (id : SystemCallId) → Bytes → id.Result
  resultBytes : (id : SystemCallId) → id.Result → Bytes
  callKey : UInt32 → Bytes
  parseTarget : Bytes → Except ChainException SystemCallTarget
  targetBytes : SystemCallTarget → Bytes
  parseMetadata : Bytes → Except ChainException ContractMetadata
  metadataBytes : ContractMetadata → Bytes
  parseRegistry : Bytes → Except ChainException (List (String × UInt64))
  parseLimits : Bytes → Except ChainException ResourceLimitData
  parseMaxAccountResources : Bytes → Except ChainException UInt64
  parseTimestamp : Bytes → Except ChainException ℕ
  /-- The unsigned number in a `value_type`, if it has one. -/
  parseNonce : Bytes → Except ChainException (Option UInt64)
  nonceBytes : UInt64 → Bytes
  parseNonce_nonceBytes : ∀ nonce, parseNonce (nonceBytes nonce) = .ok (some nonce)
  /-- `get_nested_field_value` with the protocol descriptor. -/
  transactionField : Bytes → Transaction → Bytes → Except ChainException Bytes
  blockField : Bytes → Block → Bytes → Except ChainException Bytes
  setSystemCallEvent : SetSystemCallOperation → Bytes
  setSystemContractEvent : SetSystemContractOperation → Bytes
  /-- `authorize_arguments`; a contract call is described by contract, entry point, caller and data. -/
  authorizeArguments : AuthorizationType → Option (Bytes × UInt32 × Bytes × Bytes) → Bytes
  parseAuthorizeResult : Bytes → Except ChainException Bool
  /-- The id, the parent's id and the revision that a node reports. -/
  topology : Heap → ℕ → Bytes × Bytes × ℕ
  /-- The name of a known hash code. -/
  hashName : ℕ → Option String
  hash : ℕ → Bytes → ℕ → Except ChainException Bytes
  digestLength : Multihash → ℕ
  merkleTree : ℕ → List Multihash → Multihash
  isCanonical : Bytes → Bool
  /-- The recovered key, if it is valid, in its compressed or uncompressed form. -/
  recover : Bytes → Bytes → Except ChainException (Option (Bool → Bytes))
  address : Bytes → Except ChainException Bytes
  /-- The proof's hash, unless the proof is not valid. -/
  verifyRandomProof : Bytes → Bytes → Bytes → Except ChainException (Option Multihash)
  /-- What a bytecode does under its hash. -/
  vm : Bytes → Bytes → Contract

namespace Platform

variable (p : Platform)

/-- `state::space`; `zone::kernel` is empty. -/
def space (s : SystemSpace) : ObjectSpace where
  system := true
  zone := []
  id := p.spaceId s

theorem space_injective : Function.Injective p.space := by
  intro left right same
  exact p.spaceId_injective (congrArg ObjectSpace.id same)

/-- The system objects that a node shows. -/
def objectsAt (view : View) (s : SystemSpace) (key : Bytes) : Option Bytes := view.object p.codec (p.space s) key

/-- The keys of `state::key`. -/
def objectKey (name : String) : Bytes := p.crypto.hash (text ("object_key::" ++ name))

end Platform

/-- Native code makes system calls with typed arguments. -/
abbrev Sys := (id : SystemCallId) → id.Args → HostM id.Result

/-- What the code of one thunk can use: system calls, and a host to run contracts on. -/
structure Level where
  sys : Sys
  host : HostCall → HostM Reply

end Teleno.Chain
