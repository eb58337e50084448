import Teleno.Chain.Host
import Teleno.Chain.MerkleHashes

/-! # The thunks

The native implementation of every system call, over the system calls and the host of the level below. A
thunk runs in the frame of its system call; its caller is the frame below that one. Reading the system call
table and the compute registry goes through caches that are filled from the objects of the parent node.
-/

namespace Teleno.Chain

open Library StateDb
open MonadExcept (ofExcept)

/-- Note something in the journal. -/
def record (incident : Incident) : HostM Unit :=
  modify fun w => { w with rest := { w.rest with journal := w.rest.journal ++ [incident] } }

/-- `code >= reversion`. -/
def isReversionCode (code : ℤ) : Bool := 1 ≤ code

/-- `code <= failure`. -/
def isFailureCode (code : ℤ) : Bool := code ≤ -1

/-- `reversion_exception( code, error )`. -/
def reversionOf (code : ℤ) (error : ErrorData) : ChainException :=
  ⟨.reversion (.other code), error.message, [("details", .string error.details)]⟩

/-- `failure_exception( code, error )`. -/
def failureOf (code : ℤ) (error : ErrorData) : ChainException :=
  ⟨.failure (.other code), error.message, [("details", .string error.details)]⟩

/-- `success_exception`. -/
def successException : ChainException := ⟨.success, [], []⟩

/-- Take the success exception that ends a contract for a return. -/
def untilExit (body : HostM Unit) : HostM Unit := do
  try
    body
  catch e =>
    match e.type with
    | .success => pure ()
    | _ => throw e

/-- Run a contract on the host. -/
def runContract (host : HostCall → HostM Reply) : Contract → HostM Unit
  | .done none => pure ()
  | .done (some e) => throw e
  | .host call next unwind => do
    match ← Exec.attempt (host call) with
    | .ok reply => runContract host (next reply)
    | .error e => runContract host (unwind e)

namespace Platform

variable (p : Platform)

section Caches

/-- What `cache_system_call` reads from the parent node. -/
def lookupTarget (objects : SystemSpace → Bytes → Option Bytes) (id : UInt32) :
    Except ChainException CallTarget :=
  let missing (object : String) : ChainException :=
    ⟨.reversion .invalidContract,
      text ("contract " ++ object ++ " for call id " ++ toString id ++ " not found"), [("id", .number id.toNat)]⟩
  match objects .systemCallDispatch (p.callKey id) with
  | none => .ok (.thunk id false)
  | some bytes => do
    match ← p.parseTarget bytes with
    | .thunk thunkId => .ok (.thunk thunkId true)
    | .systemCallBundle contractId entryPoint =>
      match objects .contractMetadata contractId with
      | none => .error (missing "metadata")
      | some metadata =>
        match objects .contractBytecode contractId with
        | none => .error (missing "bytecode")
        | some bytecode => do
          let metadata ← p.parseMetadata metadata
          .ok (.contract contractId bytecode entryPoint metadata)

/-- What `build_compute_registry_cache` reads from the parent node. -/
def lookupRegistry (objects : SystemSpace → Bytes → Option Bytes) :
    Except ChainException (List (String × UInt64)) :=
  match objects .metadata (p.objectKey "compute_bandwidth_registry") with
  | none => .error ⟨.reversion .reversion, text "compute bandwidth registry does not exist", []⟩
  | some bytes => p.parseRegistry bytes

/-- The last entry of a name counts. -/
def lookupPrice (registry : List (String × UInt64)) (name : String) : Option UInt64 :=
  registry.reverse.lookup name

/-- The system objects of the parent node. -/
def parentObjects (w : World Host) : SystemSpace → Bytes → Option Bytes :=
  p.objectsAt (w.heap.find w.getParentNode)

/-- `cache_system_call` and the lookup after it. -/
def cacheSystemCall (id : UInt32) : HostM CallTarget := do
  let w ← get
  match w.rest.systemCallTable id with
  | some target => pure target
  | none =>
    let target ← ofExcept (p.lookupTarget (p.parentObjects w) id)
    set { w with rest := { w.rest with
      systemCallTable := Function.update w.rest.systemCallTable id (some target) } }
    pure target

def resolve (id : UInt32) : HostM CallTarget := do
  let target ← p.cacheSystemCall id
  record (.resolved id target)
  pure target

def computeRegistry : HostM (List (String × UInt64)) := do
  let w ← get
  match w.rest.computeBandwidth with
  | some registry => pure registry
  | none =>
    let registry ← ofExcept (p.lookupRegistry (p.parentObjects w))
    set { w with rest := { w.rest with computeBandwidth := some registry } }
    pure registry

def getComputeBandwidth (name : String) : HostM UInt64 := do
  let registry ← p.computeRegistry
  match lookupPrice registry name with
  | none =>
    throw ⟨.reversion .reversion, text ("unable to find compute bandwidth for " ++ name),
      [("t", .string (text name))]⟩
  | some compute =>
    record (.priced name compute)
    pure compute

/-- The protocol descriptor of the parent node. -/
def descriptorPool : HostM Bytes := do
  let w ← get
  match w.rest.descriptorPool with
  | some descriptor => pure descriptor
  | none =>
    match p.parentObjects w .metadata (p.objectKey "protocol_descriptor") with
    | none => throw ⟨.reversion .reversion, text "file descriptor set does not exist", []⟩
    | some descriptor =>
      set { w with rest := { w.rest with descriptorPool := some descriptor } }
      pure descriptor

/-- Charge the registered compute bandwidth of an operation, a number of times. -/
def charge (name : String) (times : UInt64) : HostM Unit := do
  let compute ← p.getComputeBandwidth name
  World.useComputeBandwidth (compute * times).toInt64

end Caches

/-- The table entry of a system call that is implemented by a thunk, translated to the thunk's number. -/
def thunkTranslation (id thunkId : UInt32) (isOverride : Bool) : Except ChainException UInt32 :=
  if isOverride then .ok thunkId
  else if thunkId ≠ id then
    .error ⟨.reversion .internalError,
      text ("non-override cached thunk id " ++ toString thunkId ++ " does not match id " ++ toString id),
      [("cached", .number thunkId.toNat), ("id", .number id.toNat)]⟩
  else if (p.ofNumber id).any (·.isGenesis) then .ok id
  else .error ⟨.reversion .unknownThunk, text ("thunk " ++ toString id ++ " is not enabled"),
    [("id", .number id.toNat)]⟩

theorem thunkTranslation_number {id : SystemCallId} (genesis : id.isGenesis = true) :
    p.thunkTranslation (p.number id) (p.number id) false = .ok (p.number id) := by
  rw [thunkTranslation, if_neg Bool.false_ne_true, if_neg (not_not_intro rfl), p.ofNumber_number, Option.any_some,
    if_pos genesis]

section Calls

variable (level : Level)

/-- A frame for a contract, in kernel mode if its metadata says so. -/
def contractFrame (contractId callArgs : Bytes) (entryPoint : UInt32) (metadata : ContractMetadata) :
    StackFrame where
  callPrivilege := if metadata.system then .kernelMode else .userMode
  contract := some ⟨contractId, callArgs, entryPoint⟩

/-- Run a contract in a frame of its own. -/
def runInFrame (frame : StackFrame) (bytecode hash : Bytes) : HostM Unit :=
  untilExit <| World.withStackFrame frame do
    let w ← get
    record (.ran frame (p.objectsAt (w.heap.find w.stateNode) .contractMetadata frame.contractId))
    runContract level.host (p.vm bytecode hash)

/-- An error code in the result of a contract is thrown. -/
def requireSuccess (result : ExecutionResult) : HostM Unit :=
  if isReversionCode result.code then throw (reversionOf result.code result.res.getError)
  else if isFailureCode result.code then throw (failureOf result.code result.res.getError)
  else pure ()

/-- `execution_context::system_call` on an override. A contract that never exits leaves the last result. -/
def runOverride (contractId bytecode : Bytes) (entryPoint : UInt32) (metadata : ContractMetadata)
    (args : Bytes) : HostM ExecutionResult := do
  p.runInFrame level (contractFrame contractId args entryPoint metadata) bytecode metadata.hash
  pure (← get).rest.result

/-- `system_call::apply_block` and `system_call::apply_transaction` up to the thunk. No other thunk has their
signature. -/
def enter (thunk : BlockThunk) : HostM Bool := do
  let call : (id : SystemCallId) × id.Args := match thunk with
    | .applyBlock block => ⟨.applyBlock, block⟩
    | .applyTransaction trx => ⟨.applyTransaction, trx⟩
  match ← p.resolve (p.number call.1) with
  | .contract contractId bytecode entryPoint metadata =>
    let result ← p.runOverride level contractId bytecode entryPoint metadata (p.argsBytes call.1 call.2)
    requireSuccess result
    pure false
  | .thunk thunkId isOverride =>
    let number ← ofExcept (p.thunkTranslation (p.number call.1) thunkId isOverride)
    match p.ofNumber number with
    | none => throw ⟨.reversion .unknownThunk, text ("unrecognized thunk id " ++ toString number),
        [("id", .number number.toNat)]⟩
    | some target =>
      p.charge target.name 1
      Exec.require (target = call.1) ⟨.foreign, text "bad any_cast", []⟩
      pure true

/-- The system calls that applying blocks and transactions makes. -/
def systemCalls : SystemCalls Host where
  enter := p.enter level
  getResourceLimits := level.sys .getResourceLimits ()
  hash code bytes := level.sys .hash (code, bytes, 0)
  verifyMerkleRoot root hashes := level.sys .verifyMerkleRoot (root, hashes)
  processBlockSignature id header signature := level.sys .processBlockSignature (id, header, signature)
  preBlockCallback := level.sys .preBlockCallback ()
  postBlockCallback := level.sys .postBlockCallback ()
  consumeAccountRc account rc := level.sys .consumeAccountRc (account, rc)
  consumeBlockResources disk network compute := level.sys .consumeBlockResources (disk, network, compute)
  getAccountRc account := level.sys .getAccountRc account
  getObject space key := level.sys .getObject (space, key)
  checkAuthority type account := level.sys .checkAuthority (type, account, [])
  verifyAccountNonce account nonce := level.sys .verifyAccountNonce (account, nonce)
  getAccountNonce account := level.sys .getAccountNonce account
  setAccountNonce account nonce := level.sys .setAccountNonce (account, nonce)
  preTransactionCallback := level.sys .preTransactionCallback ()
  postTransactionCallback := level.sys .postTransactionCallback ()
  applyUploadContractOperation o := level.sys .applyUploadContractOperation o
  applyCallContractOperation o := level.sys .applyCallContractOperation o
  applySetSystemCallOperation o := level.sys .applySetSystemCallOperation o
  applySetSystemContractOperation o := level.sys .applySetSystemContractOperation o

/-- Applying blocks and transactions with these system calls. -/
def runtime : Runtime Host where
  crypto := p.crypto
  codec := p.codec
  encoding := { p.encoding with metadata := p.space .metadata }
  calls := p.systemCalls level

end Calls

section Thunks

variable (intent : Intent) (level : Level)

def requireKernelMode : HostM Unit := do
  ofExcept (Runtime.requireKernelMode (← get))

def requireWritable (message : String) : HostM Unit :=
  Exec.require (intent ≠ .readOnly) ⟨.reversion .readOnlyContext, text message, []⟩

/-- `state::assert_permissions`. -/
def assertPermissions (space : ObjectSpace) : HostM Unit := do
  let w ← get
  match w.getCallerPrivilege with
  | .kernelMode =>
    Exec.require space.system ⟨.reversion .reversion, text "privileged code can only access system space", []⟩
  | .userMode =>
    Exec.require (!space.system)
      ⟨.reversion .insufficientPrivileges, text "user code cannot access system space", []⟩
    Exec.require (space.zone = w.getCaller)
      ⟨.reversion .reversion, text "user code cannot access other contract space", []⟩

/-- The outcome of a write on the current node: it stays, whether its bytes are accepted or not. -/
def settleWrite (space : ObjectSpace) (key : Bytes) (value : Option Bytes)
    (outcome : Except StateDbError (ℤ × Heap)) : HostM Unit := do
  match outcome with
  | .error e => throw ⟨.reversion (.stateDb e), text "cannot write to a finalized node", []⟩
  | .ok (bytes, heap) =>
    let w ← get
    let old := w.heap.find w.stateNode (p.codec.serialize ⟨space, key⟩)
    set { w with heap := heap }
    record (.wrote ⟨w.stack, w.stateNode, space, key, value, old, bytes, w.meter, w.session⟩)
    World.useDiskStorage (Int64.ofInt bytes)

def putObject (space : ObjectSpace) (key obj : Bytes) : HostM Unit := do
  requireWritable intent "cannot put object during read only call"
  p.charge "object_serialization_per_byte" obj.length.toUInt64
  assertPermissions space
  let w ← get
  p.settleWrite space key (some obj) (w.heap.putObject p.codec w.stateNode space key obj)

def removeObject (space : ObjectSpace) (key : Bytes) : HostM Unit := do
  requireWritable intent "cannot remove object during read only call"
  assertPermissions space
  let w ← get
  p.settleWrite space key none (w.heap.removeObject p.codec w.stateNode space key false)

/-- The value of an object that was found is charged for. -/
def chargeObject (result : Option Bytes) : HostM Unit :=
  match result with
  | none => pure ()
  | some value => p.charge "object_serialization_per_byte" value.length.toUInt64

def getObject (space : ObjectSpace) (key : Bytes) : HostM (Option Bytes) := do
  assertPermissions space
  let w ← get
  let result := w.heap.getObject p.codec w.stateNode space key
  p.chargeObject result
  pure result

/-- `get_next_object` and `get_prev_object`, by the neighbour that the node gives. -/
def getNeighbour (neighbour : Heap → ℕ → ObjectSpace → Bytes → Option (Bytes × Bytes)) (space : ObjectSpace)
    (key : Bytes) : HostM (Option (Bytes × Bytes)) := do
  assertPermissions space
  let w ← get
  let result := neighbour w.heap w.stateNode space key
  p.chargeObject (result.map (·.1))
  pure result

/-- Objects of the metadata space, as `system_call::get_object` gives them. -/
def metadataObject (name : String) : HostM (Option Bytes) :=
  level.sys .getObject (p.space .metadata, p.objectKey name)

def defaultIrreversibleThreshold : ℕ := 60

def getLastIrreversibleBlock : HostM ℕ := do
  let w ← get
  pure ((p.topology w.heap w.stateNode).2.2 - defaultIrreversibleThreshold)

def getHeadInfo : HostM HeadInfo := do
  let w ← get
  let (id, previous, height) := p.topology w.heap w.stateNode
  let lastIrreversibleBlock ← level.sys .getLastIrreversibleBlock ()
  let headBlockTime ← match (← get).block with
    | some block => pure block.header.timestamp
    | none =>
      match ← p.metadataObject level "head_block" with
      | none => pure 0
      | some bytes => ofExcept (p.parseTimestamp bytes)
  pure { id, previous, height, lastIrreversibleBlock, headBlockTime }

def applyBlock (block : Block) : HostM Unit := do
  record .applied
  Exec.within
    (fun w => { world := w, failedTransactionIndices := w.rest.failedTransactionIndices : BlockContext Host })
    (fun _ ctx => { ctx.world with rest := { ctx.world.rest with
      failedTransactionIndices := ctx.failedTransactionIndices } })
    ((p.runtime level).applyBlock intent block)

def applyTransaction (trx : Transaction) : HostM Unit := do
  record .applied
  (p.runtime level).applyTransaction intent trx

def requireWritableContext : HostM Unit :=
  requireWritable intent "unable to perform action while context is read only"

def invalidContract (message : String) : ChainException := ⟨.reversion .invalidContract, text message, []⟩

/-- An object that must exist. -/
def requireObject (object : Option Bytes) (e : ChainException) : HostM Bytes :=
  match object with
  | some bytes => pure bytes
  | none => throw e

def applyUploadContractOperation (o : UploadContractOperation) : HostM Unit := do
  requireKernelMode
  requireWritableContext intent
  let authorized ← level.sys .checkAuthority (.contractUpload, o.contractId, [])
  let printed := p.encoding.toBase58 o.contractId
  Exec.require authorized
    ⟨.failure .authorizationFailure,
      text "account " ++ printed ++ text " has not authorized action", [("account", .string printed)]⟩
  let stored ← level.sys .getObject (p.space .contractMetadata, o.contractId)
  let before ← match stored with
    | some bytes => ofExcept (p.parseMetadata bytes)
    | none => pure {}
  let hash ← (p.runtime level).hash o.bytecode
  let metadata := { before with
    hash := hash
    authorizesCallContract := o.authorizesCallContract
    authorizesTransactionApplication := o.authorizesTransactionApplication
    authorizesUploadContract := o.authorizesUploadContract }
  level.sys .putObject (p.space .contractBytecode, o.contractId, o.bytecode)
  level.sys .putObject (p.space .contractMetadata, o.contractId, p.metadataBytes metadata)

/-- A failure of the contract becomes a reversion. -/
def applyCallContractOperation (o : CallContractOperation) : HostM Unit := do
  requireKernelMode
  requireWritableContext intent
  World.withPrivilege .userMode do
    try
      Exec.ignore (level.sys .call (o.contractId, o.entryPoint, o.args))
    catch e =>
      match e.type with
      | .failure _ => throw { e with type := .reversion .reversion }
      | _ => throw e

def requireSystemAuthority : HostM Unit := do
  let authorized ← level.sys .checkSystemAuthority ()
  Exec.require authorized
    ⟨.reversion .systemAuthorizationFailure, text "system authority required", []⟩

/-- The checks on the target of an override. -/
def checkTarget (callId : UInt32) : SystemCallTarget → HostM Unit
  | .systemCallBundle contractId _ => do
    Exec.ignore <| requireObject (← level.sys .getObject (p.space .contractBytecode, contractId))
      (invalidContract "contract does not exist")
    let stored ← requireObject (← level.sys .getObject (p.space .contractMetadata, contractId))
      (invalidContract "contract metadata does not exist")
    let metadata ← ofExcept (p.parseMetadata stored)
    Exec.require metadata.system (invalidContract "contract is not a system contract")
    Exec.require (callId ≠ p.number .call) ⟨.reversion .reversion, text "cannot override call_contract", []⟩
  | .thunk thunkId =>
    Exec.require (p.ofNumber thunkId).isSome
      ⟨.reversion .unknownThunk, text ("thunk " ++ toString thunkId ++ " does not exist"),
        [("tid", .number thunkId.toNat)]⟩

def applySetSystemCallOperation (o : SetSystemCallOperation) : HostM Unit := do
  requireKernelMode
  requireWritableContext intent
  requireSystemAuthority level
  p.checkTarget level o.callId o.target
  level.sys .putObject (p.space .systemCallDispatch, p.callKey o.callId, p.targetBytes o.target)
  level.sys .event (text "koinos.chain.set_system_call_event", p.setSystemCallEvent o, [])

def applySetSystemContractOperation (o : SetSystemContractOperation) : HostM Unit := do
  requireKernelMode
  requireWritableContext intent
  requireSystemAuthority level
  Exec.ignore <| requireObject (← level.sys .getObject (p.space .contractBytecode, o.contractId))
    (invalidContract "contract does not exist")
  let stored ← requireObject (← level.sys .getObject (p.space .contractMetadata, o.contractId))
    (invalidContract "contract does not exist")
  let metadata ← ofExcept (p.parseMetadata stored)
  Exec.require (!metadata.hash.isEmpty) (invalidContract "contract hash does not exist")
  level.sys .putObject (p.space .contractMetadata, o.contractId,
    p.metadataBytes { metadata with system := o.systemContract })
  level.sys .event (text "koinos.chain.set_system_contract_event", p.setSystemContractEvent o, [])

def getChainId : HostM Bytes := do
  let object ← p.metadataObject level "chain_id"
  pure (object.getD [])

/-- The address that signed a digest. -/
def signer (signature digest : Bytes) : HostM Bytes := do
  let key ← level.sys .recoverPublicKey (.ecdsaSecp256k1, signature, digest, true)
  ofExcept (p.address key)

def processBlockSignature (id signature : Bytes) : HostM Bool := do
  let genesisAddress ← p.metadataObject level "genesis_key"
  let address ← p.signer level signature id
  pure (genesisAddress.getD [] == address)

/-- A part of the context that may be missing. -/
def current {α : Type} (part : World Host → Option α) (e : ChainException) : HostM α := do
  match part (← get) with
  | some a => pure a
  | none => throw e

def transactionMissing : ChainException := ⟨.reversion .internalError, text "transaction does not exist", []⟩

def blockMissing : ChainException := ⟨.reversion .internalError, text "block does not exist", []⟩

def getTransaction : HostM Transaction := current (·.transaction) transactionMissing

def getTransactionField (field : Bytes) : HostM Bytes := do
  let trx ← current (·.transaction) transactionMissing
  let descriptor ← p.descriptorPool
  ofExcept (p.transactionField descriptor trx field)

def getBlock : HostM Block := current (·.block) blockMissing

def getBlockField (field : Bytes) : HostM Bytes := do
  let block ← current (·.block) blockMissing
  let descriptor ← p.descriptorPool
  ofExcept (p.blockField descriptor block field)

def getOperation : HostM Operation :=
  current (·.operation) ⟨.failure .operationNotFound, text "outside an operational context", []⟩

def getAccountNonce (account : Bytes) : HostM Bytes := do
  let object ← level.sys .getObject (p.space .transactionNonce, account)
  pure (object.getD (p.nonceBytes 0))

/-- A nonce must hold an unsigned number. -/
def requireNumber (nonce : Bytes) (account : Bytes) (subject : String) : HostM UInt64 := do
  match ← ofExcept (p.parseNonce nonce) with
  | some number => pure number
  | none =>
    let n := p.encoding.toHex nonce
    let a := p.encoding.toBase58 account
    throw ⟨.failure .invalidNonce,
      text (subject ++ " did not contain uint64 value - nonce: ") ++ n ++ text ", account: " ++ a,
      [("n", .string n), ("a", .string a)]⟩

/-- The mempool's nonce takes precedence over the stored one, which is read all the same. -/
def verifyAccountNonce (account nonce : Bytes) : HostM Bool := do
  let number ← p.requireNumber nonce account "nonce"
  let stored ← level.sys .getAccountNonce account
  let current ← p.requireNumber stored account "current nonce"
  match (← get).mempoolNonce with
  | some bytes =>
    let pending ← ofExcept (p.parseNonce bytes)
    pure (number == pending.getD 0 + 1)
  | none => pure (number == current + 1)

def setAccountNonce (account nonce : Bytes) : HostM Unit := do
  requireKernelMode
  Exec.ignore (p.requireNumber nonce account "set nonce")
  level.sys .putObject (p.space .transactionNonce, account, nonce)

/-- Whether one of the signatures is by the given address. -/
def signedBy (address digest : Bytes) : List Bytes → HostM Bool
  | [] => pure false
  | signature :: rest => do
    let recovered ← p.signer level signature digest
    if recovered = address then pure true else signedBy address digest rest

def checkSystemAuthority : HostM Bool := do
  let genesisAddress ← p.metadataObject level "genesis_key"
  let trx ← current (·.transaction) transactionMissing
  p.signedBy level (genesisAddress.getD []) trx.id trx.signatures

def getAccountRc : HostM UInt64 := do
  let bytes ← requireObject (← p.metadataObject level "max_account_resources")
    ⟨.reversion .internalError, text "max_account_resources does not exist", []⟩
  ofExcept (p.parseMaxAccountResources bytes)

def getResourceLimits : HostM ResourceLimitData := do
  let bytes ← requireObject (← p.metadataObject level "resource_limit_data")
    ⟨.reversion .internalError, text "resource_limit_data does not exist", []⟩
  ofExcept (p.parseLimits bytes)

def event (name data : Bytes) (impacted : List Bytes) : HostM Unit := do
  let reject (message : String) : ChainException := ⟨.reversion .reversion, text message, []⟩
  Exec.require (!name.isEmpty) (reject "event name cannot be empty")
  Exec.require (name.length ≤ 128) (reject "event name cannot be larger than 128 bytes")
  Exec.require (p.encoding.validateUtf name) (reject "event name contains invalid utf-8")
  p.charge "event_per_impacted" impacted.length.toUInt64
  World.pushEvent { source := (← get).getCaller, name, data, impacted }

/-- The name of a hash function that is known. -/
def hashFunction (code : ℕ) : HostM String :=
  match p.hashName code with
  | some name => pure name
  | none => throw ⟨.failure .unknownHashCode, text "unknown hash code", []⟩

def hashThunk (code : ℕ) (obj : Bytes) (size : ℕ) : HostM Bytes := do
  let name ← p.hashFunction code
  let base ← p.getComputeBandwidth (name ++ "_base")
  let perByte ← p.getComputeBandwidth (name ++ "_per_byte")
  World.useComputeBandwidth (base + perByte * obj.length.toUInt64).toInt64
  ofExcept (p.hash code obj size)

def requireKnownDsa (type : Dsa) : HostM Unit :=
  Exec.require (type = .ecdsaSecp256k1) ⟨.failure .unknownDsa, text "unexpected dsa", []⟩

def recoverPublicKey (type : Dsa) (signature digest : Bytes) (compressed : Bool) : HostM Bytes := do
  let reject (message : String) : ChainException := ⟨.failure .invalidSignature, text message, []⟩
  requireKnownDsa type
  Exec.require (signature.length = 65) (reject "unexpected signature length")
  Exec.require (p.isCanonical signature) (reject "signature must be canonical")
  match ← ofExcept (p.recover signature digest) with
  | some key => pure (key compressed)
  | none => throw (reject "public key is invalid")

/-- Every leaf must be a multihash of the root's code and size. -/
def parseLeaf (root : ℕ × Multihash) (bytes : Bytes) : Except ChainException Multihash := do
  let leaf ← p.encoding.parseMultihash bytes
  let reject (message : String) : ChainException := ⟨.failure .unknownHashCode, text message, []⟩
  if leaf.1 ≠ root.1 then .error (reject "leaf and merkle root hash codes do not match")
  else if p.digestLength leaf.2 ≠ p.digestLength root.2 then
    .error (reject "leaf and merkle root hash sizes do not match")
  else .ok leaf.2

def verifyMerkleRoot (root : Bytes) (hashes : List Bytes) : HostM Bool := do
  let base ← p.getComputeBandwidth "deserialize_multihash_base"
  let perByte ← p.getComputeBandwidth "deserialize_multihash_per_byte"
  World.useComputeBandwidth
    ((hashes.length.toUInt64 + 1) * (base + root.length.toUInt64 * perByte)).toInt64
  let rootHash ← ofExcept (p.encoding.parseMultihash root)
  let name ← p.hashFunction rootHash.1
  let hashBase ← p.getComputeBandwidth (name ++ "_base")
  let hashPerByte ← p.getComputeBandwidth (name ++ "_per_byte")
  World.useComputeBandwidth (hashesPerLeaves hashes.length.toUInt64 *
    (hashBase + 2 * (p.digestLength rootHash.2).toUInt64 * hashPerByte)).toInt64
  let leaves ← ofExcept (hashes.mapM (p.parseLeaf rootHash))
  pure (p.merkleTree rootHash.1 leaves == rootHash.2)

def verifySignature (type : Dsa) (publicKey signature digest : Bytes) (compressed : Bool) : HostM Bool := do
  requireKnownDsa type
  let recovered ← level.sys .recoverPublicKey (type, signature, digest, compressed)
  pure (recovered == publicKey)

def verifyVrfProof (type : Dsa) (publicKey proof hash message : Bytes) : HostM Bool := do
  requireKnownDsa type
  let expected ← ofExcept (p.encoding.parseMultihash hash)
  let proved ← ofExcept (p.verifyRandomProof publicKey message proof)
  pure (proved == some expected.2)

def call (contractId : Bytes) (entryPoint : UInt32) (args : Bytes) : HostM Bytes := do
  let bytecode ← requireObject (← level.sys .getObject (p.space .contractBytecode, contractId))
    (invalidContract "contract does not exist")
  let stored ← requireObject (← level.sys .getObject (p.space .contractMetadata, contractId))
    (invalidContract "contract metadata does not exist")
  let metadata ← ofExcept (p.parseMetadata stored)
  Exec.require (!metadata.hash.isEmpty) (invalidContract "contract hash does not exist")
  Exec.require (entryPoint ≠ authorizeEntrypoint || (← get).getCallerPrivilege = .kernelMode)
    ⟨.reversion .insufficientPrivileges, text "calling privileged thunk from non-privileged code", []⟩
  p.runInFrame level (contractFrame contractId args entryPoint metadata) bytecode metadata.hash
  let result := (← get).rest.result
  requireSuccess result
  pure result.res.getObject

/-- The result is stored before its message is checked. -/
def exit (code : ℤ) (res : ResultValue) : HostM Unit := do
  modify fun w => { w with rest := { w.rest with result := ⟨code, res⟩ } }
  let reject (message : String) : ChainException := ⟨.reversion .reversion, text message, []⟩
  if code = 0 then throw successException else
  match res with
  | .error error =>
    if p.encoding.validateUtf error.message then
      throw (if isReversionCode code then reversionOf code error else failureOf code error)
    else throw (reject "error message contains invalid utf-8")
  | _ => throw (reject "exit error did not contain error data")

def getArguments : HostM ArgumentData := do
  let frame ← current (·.caller) (World.stackEmpty "stack is empty")
  pure ⟨frame.entryPoint, frame.callArgs⟩

/-- The caller of the contract that asks. -/
def getCaller : HostM CallerData := do
  let frame0 ← World.takeFrame
  let frame1 ← World.takeFrame
  let w ← get
  World.pushFrame frame1
  World.pushFrame frame0
  pure ⟨w.getCaller, w.getCallerPrivilege⟩

/-- The system asks for a transaction or an upload, a contract for a call. -/
def authorizationType (w : World Host) : AuthorizationType :=
  if w.getCaller.isEmpty then
    match w.operation with
    | some (.uploadContract _) => .contractUpload
    | _ => .transactionApplication
  else .contractCall

def authorizesItself (type : AuthorizationType) (metadata : ContractMetadata) : Bool :=
  match type with
  | .contractCall => metadata.authorizesCallContract
  | .transactionApplication => metadata.authorizesTransactionApplication
  | .contractUpload => metadata.authorizesUploadContract

/-- What the authorize entry point of a contract is told about a call. -/
def callDetails (type : AuthorizationType) (data : Bytes) :
    HostM (Option (Bytes × UInt32 × Bytes × Bytes)) := do
  match type with
  | .contractCall =>
    let w ← get
    let asked ← getCaller
    pure (some (w.getCaller, w.getCallerEntryPoint, asked.caller, data))
  | _ => pure none

def checkAuthority (account data : Bytes) : HostM Bool := do
  requireWritableContext intent
  let type := authorizationType (← get)
  let stored ← level.sys .getObject (p.space .contractMetadata, account)
  let overridden ← match stored with
    | none => pure false
    | some bytes => do
      let metadata ← ofExcept (p.parseMetadata bytes)
      pure (authorizesItself type metadata)
  if overridden then do
    let details ← callDetails type data
    let answer ← level.sys .call (account, authorizeEntrypoint, p.authorizeArguments type details)
    ofExcept (p.parseAuthorizeResult answer)
  else do
    let trx ← current (·.transaction) transactionMissing
    p.signedBy level account trx.id trx.signatures

/-- The registered thunks. -/
def thunk : (id : SystemCallId) → id.Args → HostM id.Result
  | .getHeadInfo, _ => p.getHeadInfo level
  | .applyBlock, block => p.applyBlock intent level block
  | .applyTransaction, trx => p.applyTransaction intent level trx
  | .applyUploadContractOperation, o => p.applyUploadContractOperation intent level o
  | .applyCallContractOperation, o => applyCallContractOperation intent level o
  | .applySetSystemCallOperation, o => p.applySetSystemCallOperation intent level o
  | .applySetSystemContractOperation, o => p.applySetSystemContractOperation intent level o
  | .preBlockCallback, _ => pure ()
  | .postBlockCallback, _ => pure ()
  | .preTransactionCallback, _ => pure ()
  | .postTransactionCallback, _ => pure ()
  | .getChainId, _ => p.getChainId level
  | .processBlockSignature, (id, _, signature) => p.processBlockSignature level id signature
  | .getTransaction, _ => getTransaction
  | .getTransactionField, field => p.getTransactionField field
  | .getBlock, _ => getBlock
  | .getBlockField, field => p.getBlockField field
  | .getLastIrreversibleBlock, _ => p.getLastIrreversibleBlock
  | .getAccountNonce, account => p.getAccountNonce level account
  | .verifyAccountNonce, (account, nonce) => p.verifyAccountNonce level account nonce
  | .setAccountNonce, (account, nonce) => p.setAccountNonce level account nonce
  | .checkSystemAuthority, _ => p.checkSystemAuthority level
  | .getOperation, _ => getOperation
  | .getAccountRc, _ => p.getAccountRc level
  | .consumeAccountRc, _ => pure true
  | .getResourceLimits, _ => p.getResourceLimits level
  | .consumeBlockResources, _ => pure true
  | .putObject, (space, key, obj) => p.putObject intent space key obj
  | .removeObject, (space, key) => p.removeObject intent space key
  | .getObject, (space, key) => p.getObject space key
  | .getNextObject, (space, key) => p.getNeighbour (fun h q => h.getNextObject p.codec q) space key
  | .getPrevObject, (space, key) => p.getNeighbour (fun h q => h.getPrevObject p.codec q) space key
  | .log, message => (p.runtime level).log message
  | .event, (name, data, impacted) => p.event name data impacted
  | .hash, (code, obj, size) => p.hashThunk code obj size
  | .recoverPublicKey, (type, signature, digest, compressed) =>
    p.recoverPublicKey type signature digest compressed
  | .verifyMerkleRoot, (root, hashes) => p.verifyMerkleRoot root hashes
  | .verifySignature, (type, key, signature, digest, compressed) =>
    verifySignature level type key signature digest compressed
  | .verifyVrfProof, (type, key, proof, hash, message) => p.verifyVrfProof type key proof hash message
  | .call, (contractId, entryPoint, args) => p.call level contractId entryPoint args
  | .exit, (code, res) => p.exit code res
  | .getArguments, _ => getArguments
  | .getContractId, _ => do return (← get).getContractId
  | .getCaller, _ => getCaller
  | .checkAuthority, (_, account, data) => p.checkAuthority intent level account data
  | .nop, _ => pure ()

end Thunks

end Platform

end Teleno.Chain
