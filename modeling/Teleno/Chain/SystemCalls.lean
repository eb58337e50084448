import Teleno.Chain.ExecutionContext

/-! # Applying blocks and transactions

The thunks `apply_block` and `apply_transaction`, and the part of `controller::apply_block` that runs
them. Every other system call is a field of `SystemCalls`: an arbitrary deterministic program on the
world, which may charge resources, write to any state node and throw any exception. Protobuf and
multihash encodings and the printable forms in messages are fields of `Encoding`.

`apply_transaction` keeps its local variables across its handlers, so its body runs on a
`TransactionFrame`: the world together with the locals.
-/

namespace Teleno.Chain

open Library StateDb

inductive AuthorizationType where
  | contractCall
  | transactionApplication
  | contractUpload

/-- The thunks that are modeled here and reached through a system call of their own. -/
inductive BlockThunk where
  | applyBlock (block : Block)
  | applyTransaction (trx : Transaction)

/-- The system calls made by the modeled thunks. `enter` looks a thunk up in the dispatch table. It charges
the compute bandwidth of the thunk, which is then to be run, or runs an override in its place. -/
structure SystemCalls (σ : Type) where
  enter : BlockThunk → WorldM σ Bool
  getResourceLimits : WorldM σ ResourceLimitData
  hash : ℕ → Bytes → WorldM σ Bytes
  verifyMerkleRoot : Bytes → List Bytes → WorldM σ Bool
  processBlockSignature : Bytes → BlockHeader → Bytes → WorldM σ Bool
  preBlockCallback : WorldM σ Unit
  postBlockCallback : WorldM σ Unit
  consumeAccountRc : Bytes → UInt64 → WorldM σ Bool
  consumeBlockResources : UInt64 → UInt64 → UInt64 → WorldM σ Bool
  getAccountRc : Bytes → WorldM σ UInt64
  getObject : ObjectSpace → Bytes → WorldM σ (Option Bytes)
  checkAuthority : AuthorizationType → Bytes → WorldM σ Bool
  verifyAccountNonce : Bytes → Bytes → WorldM σ Bool
  getAccountNonce : Bytes → WorldM σ Bytes
  setAccountNonce : Bytes → Bytes → WorldM σ Unit
  preTransactionCallback : WorldM σ Unit
  postTransactionCallback : WorldM σ Unit
  applyUploadContractOperation : UploadContractOperation → WorldM σ Unit
  applyCallContractOperation : CallContractOperation → WorldM σ Unit
  applySetSystemCallOperation : SetSystemCallOperation → WorldM σ Unit
  applySetSystemContractOperation : SetSystemContractOperation → WorldM σ Unit

/-- Encodings and printable forms. -/
structure Encoding where
  blockHeader : BlockHeader → Bytes
  block : Block → Bytes
  transactionHeader : TransactionHeader → Bytes
  transaction : Transaction → Bytes
  operation : Operation → Bytes
  /-- The code of a multihash and its serialized form. -/
  parseMultihash : Bytes → Except ChainException (ℕ × Multihash)
  parseVarint : Bytes → Except ChainException ℕ
  toBase58 : Bytes → Bytes
  toHex : Bytes → Bytes
  validateUtf : Bytes → Bool
  /-- `state::space::metadata()`. -/
  metadata : ObjectSpace

/-- What block application depends on besides the context. -/
structure Runtime (σ : Type) where
  crypto : Crypto
  codec : KeyCodec
  encoding : Encoding
  calls : SystemCalls σ

/-- The local variables of `apply_transaction` that its handlers read, with the world. -/
structure TransactionFrame (σ : Type) where
  world : World σ
  outerSessions : List PayerSession := []
  receipt : TransactionReceipt := {}
  revertedException : Option ChainException := none
  usedRc : UInt64 := 0
  diskStorageUsed : UInt64 := 0
  computeBandwidthUsed : UInt64 := 0
  networkBandwidthUsed : UInt64 := 0
  payerRc : UInt64 := 0
  events : List EventData := []
  logs : List Bytes := []

abbrev TransactionM (σ : Type) := EStateM ChainException (TransactionFrame σ)

variable {σ α : Type}

namespace TransactionFrame

def setWorld (world : World σ) (frame : TransactionFrame σ) : TransactionFrame σ :=
  { frame with world := world }

/-- `make_session`. The sessions of the transactions around this one stay alive. -/
def makeSession (rc : UInt64) (frame : TransactionFrame σ) : TransactionFrame σ :=
  let outer := frame.world.session.toList ++ frame.world.detachedSessions
  { frame with
    outerSessions := outer
    world := { frame.world with session := some (.start rc), detachedSessions := outer } }

/-- The session of this transaction, whether the meter still sees it or not. -/
def payerSession (frame : TransactionFrame σ) : Option PayerSession :=
  frame.world.session.or <|
    if frame.outerSessions.length < frame.world.detachedSessions.length then frame.world.detachedSessions.head?
    else none

/-- The end of this transaction's session. -/
def resetSession (frame : TransactionFrame σ) : TransactionFrame σ :=
  { frame with world := { frame.world with session := none, detachedSessions := frame.outerSessions } }

/-- Run a program that only concerns the world. -/
abbrev inWorld (program : WorldM σ α) : TransactionM σ α := Exec.focus world setWorld program

/-- Run the body on fresh locals and forget them. -/
abbrev withLocals (body : TransactionM σ α) : WorldM σ α :=
  Exec.within (fun w => { world := w }) (fun _ frame => frame.world) body

end TransactionFrame

open TransactionFrame (inWorld)

/-- What `openTransaction` leaves behind: the usage at the start and the two nodes. -/
structure OpenedTransaction where
  startDiskUsed : UInt64
  startNetworkUsed : UInt64
  startComputeUsed : UInt64
  blockNode : ℕ
  trxNode : ℕ

/-- How the operations phase ended, when it returned. -/
inductive OperationsOutcome where
  | settle
  | abandon

namespace Runtime

variable (rt : Runtime σ)

/-- The keys of `state::key`. -/
def objectKey (name : String) : Bytes := rt.crypto.hash (text ("object_key::" ++ name))

/-- `context.block_hash_code()`, read from the parent node once and then cached. -/
def blockHashCode : WorldM σ ℕ := do
  let w ← get
  match w.blockHashCode with
  | some code => pure code
  | none =>
    match w.heap.getObject rt.codec w.getParentNode rt.encoding.metadata (rt.objectKey "block_hash_code") with
    | none => throw ⟨.reversion .invalidContract, text "block hash code does not exist", []⟩
    | some bytes =>
      let code ← MonadExcept.ofExcept (rt.encoding.parseVarint bytes)
      set { w with blockHashCode := some code }
      pure code

/-- The `hash` system call with the block hash code. -/
def hash (bytes : Bytes) : WorldM σ Bytes := do
  let code ← rt.blockHashCode
  rt.calls.hash code bytes

/-- A Merkle root must be a multihash of the block hash code; `was` and `expected` are its captures. -/
def requireHashCode (root : Bytes) (subject : String) (was : String) (kind : FailureKind) :
    WorldM σ Unit := do
  let parsed ← MonadExcept.ofExcept (rt.encoding.parseMultihash root)
  let code ← rt.blockHashCode
  Exec.require (parsed.1 == code)
    ⟨.failure kind,
      text ("unexpected " ++ subject ++ " merkle root hash code - was: " ++ toString parsed.1 ++
        ", expected: " ++ toString code),
      [(was, .number parsed.1), ("e", .number code)]⟩

/-- `thunk::_log`. -/
def log (message : Bytes) : WorldM σ Unit := do
  Exec.require (rt.encoding.validateUtf message)
    ⟨.reversion .reversion, text "log entry contains invalid utf-8", []⟩
  World.pushLog message

def requireKernelMode (w : World σ) : Except ChainException Unit :=
  if w.getCallerPrivilege = .kernelMode then .ok ()
  else .error ⟨.reversion .insufficientPrivileges,
    text "calling privileged thunk from non-privileged code", []⟩

section ApplyTransaction

def requireAuthority (account : Bytes) : WorldM σ Unit := do
  let authorized ← rt.calls.checkAuthority .transactionApplication account
  let printed := rt.encoding.toBase58 account
  Exec.require authorized
    ⟨.failure .authorizationFailure,
      text "account " ++ printed ++ text " has not authorized transaction", [("account", .string printed)]⟩

/-- The payee's nonce is used if the payee is set and is not the payer. -/
def usePayeeNonce (trx : Transaction) : Bool :=
  !trx.header.payee.isEmpty && trx.header.payee != trx.header.payer

def nonceAccount (trx : Transaction) : Bytes :=
  if usePayeeNonce trx then trx.header.payee else trx.header.payer

/-- The message of a rejected nonce names the current nonce, which may need a system call. -/
def requireNonce (trx : Transaction) : WorldM σ Unit := do
  let account := nonceAccount trx
  if ← rt.calls.verifyAccountNonce account trx.header.nonce then pure () else
  let current ← match (← get).mempoolNonce with
    | some nonce => pure nonce
    | none => rt.calls.getAccountNonce account
  let a := rt.encoding.toBase58 account
  let n := rt.encoding.toHex trx.header.nonce
  let c := rt.encoding.toHex current
  throw ⟨.failure .invalidNonce,
    text "invalid transaction nonce - account: " ++ a ++ text ", nonce: " ++ n ++
      text ", current nonce: " ++ c,
    [("a", .string a), ("n", .string n), ("c", .string c)]⟩

/-- The checks before the operations, after the payer's RC has been read. -/
def verifyTransaction (trx : Transaction) (payerRc : UInt64) : WorldM σ Unit := do
  let reject (message : String) : ChainException := ⟨.failure .failure, text message, []⟩
  Exec.require (trx.header.rcLimit ≤ payerRc) (reject "payer does not have the rc to cover transaction rc limit")
  let chainId ← rt.calls.getObject rt.encoding.metadata (rt.objectKey "chain_id")
  Exec.require chainId.isSome (reject "chain id does not exist")
  Exec.require (chainId == some trx.header.chainId) (reject "chain id mismatch")
  let id ← rt.hash (rt.encoding.transactionHeader trx.header)
  Exec.require (id == trx.id) (reject "transaction contains an invalid transaction id")
  rt.requireHashCode trx.header.operationMerkleRoot "operation" "o" .failure
  let hashes ← trx.operations.mapM fun op => rt.hash (rt.encoding.operation op)
  let valid ← rt.calls.verifyMerkleRoot trx.header.operationMerkleRoot hashes
  Exec.require valid (reject "operation merkle root does not match")
  rt.requireAuthority trx.header.payer
  if usePayeeNonce trx then rt.requireAuthority trx.header.payee
  rt.requireNonce trx
  rt.calls.setAccountNonce (nonceAccount trx) trx.header.nonce
  World.useNetworkBandwidth (rt.encoding.transaction trx).length.toUInt64.toInt64

/-- Before the operations every reversion becomes a failure. -/
def checkTransaction (trx : Transaction) : TransactionM σ Unit := do
  try
    let payerRc ← inWorld (rt.calls.getAccountRc trx.header.payer)
    modify fun frame => { frame with payerRc := payerRc }
    inWorld (rt.verifyTransaction trx payerRc)
  catch e =>
    match e.type with
    | .reversion _ => throw ⟨.failure .failure, e.message, []⟩
    | _ => throw e

/-- Everything from `transaction_guard` to the creation of the transaction's own node. -/
def openTransaction (trx : Transaction) : TransactionM σ OpenedTransaction := do
  inWorld (modify fun w => { w with transaction := some trx })
  let meter := (← get).world.meter
  modify (·.makeSession trx.header.rcLimit)
  rt.checkTransaction trx
  let blockNode := (← get).world.stateNode
  let trxNode ← inWorld World.enterAnonymousNode
  pure ⟨meter.diskStorageUsed, meter.networkBandwidthUsed, meter.computeBandwidthUsed, blockNode, trxNode⟩

def applyOperation (op : Operation) : WorldM σ Unit := do
  modify fun w => { w with operation := some op }
  Exec.bracket (fun w => { w with operation := none }) <|
    match op with
    | .uploadContract o => rt.calls.applyUploadContractOperation o
    | .callContract o => rt.calls.applyCallContractOperation o
    | .setSystemCall o => rt.calls.applySetSystemCallOperation o
    | .setSystemContract o => rt.calls.applySetSystemContractOperation o
    | .unset => throw ⟨.reversion .unknownOperation, text "unknown operation", []⟩

/-- The operations phase up to the commit of the transaction's node. -/
def runOperations (trx : Transaction) (opened : OpenedTransaction) : WorldM σ Unit := do
  rt.calls.preTransactionCallback
  trx.operations.forM rt.applyOperation
  rt.calls.postTransactionCallback
  World.commitAnonymousNode opened.blockNode opened.trxNode

/-- The handlers of the operations phase. A reversion is kept for the receipt and thrown again at the
end. A failure is thrown, except that a proposal goes back to the block's node and returns. -/
def applyOperations (intent : Intent) (trx : Transaction) (opened : OpenedTransaction) :
    TransactionM σ OperationsOutcome := do
  try
    inWorld (rt.runOperations trx opened)
    pure .settle
  catch e =>
    match e.type with
    | .failure _ =>
      if intent ≠ .blockProposal then throw e else
      inWorld (modify fun w => w.setStateNode opened.blockNode)
      pure .abandon
    | .reversion _ =>
      modify fun frame => { frame with receipt := { frame.receipt with reverted := true } }
      inWorld (rt.log (text "transaction reverted: " ++ e.message))
      modify fun frame => { frame with revertedException := some e }
      pure .settle
    | _ => throw e

/-- `generate_receipt` for a transaction. The repeated fields are appended to. -/
def generateTransactionReceipt (trx : Transaction) (frame : TransactionFrame σ) : TransactionReceipt :=
  let w := frame.world
  { frame.receipt with
    id := trx.id
    payer := trx.header.payer
    maxPayerRc := frame.payerRc
    rcLimit := trx.header.rcLimit
    rcUsed := frame.usedRc
    diskStorageUsed := frame.diskStorageUsed
    networkBandwidthUsed := frame.networkBandwidthUsed
    computeBandwidthUsed := frame.computeBandwidthUsed
    events := frame.receipt.events ++ frame.events
    logs := frame.receipt.logs ++ frame.logs
    stateDeltaEntries := frame.receipt.stateDeltaEntries ++
      (w.heap.cell w.stateNode).getDeltaEntries rt.codec }

def addTransactionReceipt (receipt : TransactionReceipt) : WorldM σ Unit := do
  let w ← get
  match w.receipt with
  | .block block => set { w with receipt := .block (block.addTransactionReceipt receipt) }
  | _ => throw ⟨.failure .failure, text "expected block receipt with block application intent", []⟩

/-- The `switch( context.intent() )` that hands out a receipt. -/
def storeReceipt (intent : Intent) (receipt : TransactionReceipt) : WorldM σ Unit :=
  match intent with
  | .blockApplication | .blockProposal => addTransactionReceipt receipt
  | .transactionApplication => modify fun w => { w with receipt := .transaction receipt }
  | .readOnly => pure ()

def recordReceipt (intent : Intent) (trx : Transaction) : TransactionM σ Unit := do
  modify fun frame => { frame with receipt := rt.generateTransactionReceipt trx frame }
  let receipt := (← get).receipt
  inWorld (storeReceipt intent receipt)

/-- Charge the payer and write the receipt, back on the block's node. -/
def settle (intent : Intent) (trx : Transaction) (opened : OpenedTransaction) : TransactionM σ Unit := do
  inWorld (modify fun w => w.setStateNode opened.blockNode)
  modify fun frame =>
    let session := frame.payerSession.getD (.start trx.header.rcLimit)
    let meter := frame.world.meter
    { frame with
      usedRc := session.usedRc
      logs := session.logs
      events := if frame.receipt.reverted then frame.events else session.events
      diskStorageUsed := meter.diskStorageUsed - opened.startDiskUsed
      networkBandwidthUsed := meter.networkBandwidthUsed - opened.startNetworkUsed
      computeBandwidthUsed := meter.computeBandwidthUsed - opened.startComputeUsed }
  modify TransactionFrame.resetSession
  let consumed ← inWorld (rt.calls.consumeAccountRc trx.header.payer (← get).usedRc)
  let payer := rt.encoding.toBase58 trx.header.payer
  Exec.require consumed
    ⟨.failure .failure, text "unable to consume rc for payer: " ++ payer, [("p", .string payer)]⟩
  rt.recordReceipt intent trx

/-- The assertions before `transaction_guard`. -/
def admitTransaction (intent : Intent) : TransactionM σ Unit := do
  MonadExcept.ofExcept (requireKernelMode (← get).world)
  Exec.require (intent ≠ .readOnly)
    ⟨.reversion .readOnlyContext, text "unable to perform action while context is read only", []⟩

/-- The destructors of the payer session and of `transaction_guard`. -/
def closeTransaction (frame : TransactionFrame σ) : TransactionFrame σ :=
  let frame := frame.resetSession
  frame.setWorld { frame.world with transaction := none }

/-- The outer `try` block of `apply_transaction`. -/
def transactionBody (intent : Intent) (trx : Transaction) : TransactionM σ Unit := do
  admitTransaction intent
  Exec.bracket closeTransaction do
    let opened ← rt.openTransaction trx
    match ← rt.applyOperations intent trx opened with
    | .settle => rt.settle intent trx opened
    | .abandon => pure ()

/-- Whatever `koinos::exception` leaves the body of `apply_transaction` still gets a receipt. -/
def rethrowWithReceipt (intent : Intent) (trx : Transaction) (e : ChainException) : TransactionM σ Unit :=
  if e.isKoinos then do
    rt.recordReceipt intent trx
    throw e
  else throw e

/-- The thunk `apply_transaction`. -/
def applyTransaction (intent : Intent) (trx : Transaction) : WorldM σ Unit :=
  TransactionFrame.withLocals do
    try
      rt.transactionBody intent trx
    catch e =>
      rt.rethrowWithReceipt intent trx e
    match (← get).revertedException with
    | some e => throw e
    | none => pure ()

/-- `system_call::apply_transaction`. -/
def callApplyTransaction (intent : Intent) (trx : Transaction) : WorldM σ Unit :=
  World.withStackFrame .systemCall do
    if ← rt.calls.enter (.applyTransaction trx) then rt.applyTransaction intent trx

end ApplyTransaction

section ApplyBlock

/-- One round of the transaction loop. Reversions are ignored; a proposal notes the index of a failed
transaction. -/
def applyTransactionAt (intent : Intent) (i : ℕ) (trx : Transaction) : BlockM σ Unit := do
  try
    BlockContext.onWorld (rt.callApplyTransaction intent trx)
  catch e =>
    match e.type with
    | .reversion _ => pure ()
    | .failure _ =>
      if intent = .blockProposal then BlockContext.addFailedTransactionIndex i
      else throw (e.capture "transaction_id" (rt.encoding.toHex trx.id))
    | .foreign => throw e
    | _ => throw (e.capture "transaction_id" (rt.encoding.toHex trx.id))

/-- The transaction loop from index `i` on. -/
def applyTransactions (intent : Intent) : ℕ → List Transaction → BlockM σ Unit
  | _, [] => pure ()
  | i, trx :: rest => do
    rt.applyTransactionAt intent i trx
    applyTransactions intent (i + 1) rest

/-- The header and the signatures of every transaction, hashed. -/
def transactionHashes (transactions : List Transaction) : WorldM σ (List Bytes) := do
  let hashes ← transactions.mapM fun trx => do
    let header ← rt.hash (rt.encoding.transactionHeader trx.header)
    let signatures ← rt.hash trx.signatures.flatten
    pure [header, signatures]
  pure hashes.flatten

/-- The head block is written without charging disk storage. -/
def putHeadBlock (block : Block) : WorldM σ Unit := do
  let w ← get
  match w.heap.putObject rt.codec w.stateNode rt.encoding.metadata (rt.objectKey "head_block")
      (rt.encoding.block block) with
  | .ok written => set { w with heap := written.2 }
  | .error e => throw ⟨.reversion (.stateDb e), text "cannot write to a finalized node", []⟩

/-- The checks of `apply_block` on the block, between the reset of the meter and the write of the head block. -/
def verifyBlock (block : Block) : WorldM σ Unit := do
  let reject (message : String) : ChainException := ⟨.failure .malformedBlock, text message, []⟩
  let id ← rt.hash (rt.encoding.blockHeader block.header)
  Exec.require (id == block.id) (reject "block contains an invalid block id")
  rt.requireHashCode block.header.transactionMerkleRoot "transaction" "t" .malformedBlock
  let hashes ← rt.transactionHashes block.transactions
  let transactionsSize := block.transactions.foldl (fun size trx => size + (rt.encoding.transaction trx).length) 0
  World.useNetworkBandwidth ((rt.encoding.block block).length.toUInt64 - transactionsSize.toUInt64).toInt64
  let valid ← rt.calls.verifyMerkleRoot block.header.transactionMerkleRoot hashes
  Exec.require valid (reject "transaction merkle root does not match")
  let headerHash ← rt.hash (rt.encoding.blockHeader block.header)
  let digest ← MonadExcept.ofExcept (rt.encoding.parseMultihash headerHash)
  let signed ← rt.calls.processBlockSignature digest.2 block.header block.signature
  Exec.require signed ⟨.failure .invalidSignature, text "failed to process block signature", []⟩
  rt.calls.preBlockCallback

/-- `apply_block` up to the transaction loop. -/
def beforeTransactions (block : Block) : WorldM σ Unit := do
  let limits ← rt.calls.getResourceLimits
  modify fun w => { w with meter := .ofLimits limits }
  rt.verifyBlock block
  rt.putHeadBlock block

/-- `apply_block` after the transaction loop; returns the meter whose usage is charged. -/
def afterTransactions (block : Block) : WorldM σ ResourceMeter := do
  rt.calls.postBlockCallback
  let consumed ← rt.calls.consumeAccountRc block.header.signer (← get).meter.systemRcCost
  let producer := rt.encoding.toBase58 block.header.signer
  Exec.require consumed
    ⟨.reversion .insufficientRc, text "unable to consume system rc for block producer: " ++ producer,
      [("p", .string producer)]⟩
  let meter := (← get).meter
  let consumed ← rt.calls.consumeBlockResources meter.diskStorageUsed meter.networkBandwidthUsed
    meter.computeBandwidthUsed
  Exec.require consumed ⟨.failure .failure, text "unable to consume block resources", []⟩
  pure meter

/-- `generate_receipt` for a block, with the usage of `charged` as the charged resources. The repeated
fields are appended to. -/
def fillBlockReceipt (block : Block) (charged : ResourceMeter) (w : World σ) (receipt : BlockReceipt) :
    BlockReceipt :=
  { receipt with
    id := block.id
    height := block.header.height
    diskStorageUsed := w.meter.diskStorageUsed
    networkBandwidthUsed := w.meter.networkBandwidthUsed
    computeBandwidthUsed := w.meter.computeBandwidthUsed
    diskStorageCharged := charged.diskStorageUsed
    networkBandwidthCharged := charged.networkBandwidthUsed
    computeBandwidthCharged := charged.computeBandwidthUsed
    events := receipt.events ++ (w.chronicler.events.filter (·.1.isNone)).map (·.2)
    logs := receipt.logs ++ w.chronicler.logs
    stateDeltaEntries := receipt.stateDeltaEntries ++
      (w.heap.cell w.stateNode).getDeltaEntries rt.codec }

def generateBlockReceipt (block : Block) (charged : ResourceMeter) : WorldM σ Unit := do
  let w ← get
  match w.receipt with
  | .block receipt => set { w with receipt := .block (rt.fillBlockReceipt block charged w receipt) }
  | _ => throw ⟨.foreign, text "std::get: wrong index for variant", []⟩

def admitBlock (intent : Intent) : BlockM σ Unit := do
  MonadExcept.ofExcept (requireKernelMode (← get).world)
  Exec.require (intent = .blockApplication || intent = .blockProposal)
    ⟨.reversion .insufficientPrivileges,
      text "expected block application intent while applying block", []⟩

/-- What runs under `block_guard`. -/
def blockBody (intent : Intent) (block : Block) : BlockM σ Unit := do
  BlockContext.onWorld (rt.beforeTransactions block)
  rt.applyTransactions intent 0 block.transactions
  let charged ← BlockContext.onWorld (rt.afterTransactions block)
  BlockContext.onWorld (rt.generateBlockReceipt block charged)

/-- The destructor of `block_guard`. -/
def closeBlock (ctx : BlockContext σ) : BlockContext σ := ctx.setWorld { ctx.world with block := none }

/-- `catch( ... )` of `apply_block`. -/
def rethrowWithBlockReceipt (block : Block) (e : ChainException) : BlockM σ Unit := do
  BlockContext.onWorld (rt.generateBlockReceipt block (← get).world.meter)
  throw e

/-- The thunk `apply_block`. -/
def applyBlock (intent : Intent) (block : Block) : BlockM σ Unit := do
  BlockContext.onWorld (modify fun w => { w with receipt := .block {} })
  try
    admitBlock intent
    BlockContext.onWorld (modify fun w => { w with block := some block })
    Exec.bracket closeBlock (rt.blockBody intent block)
  catch e =>
    rt.rethrowWithBlockReceipt block e

/-- `system_call::apply_block`. -/
def callApplyBlock (intent : Intent) (block : Block) : BlockM σ Unit := do
  BlockContext.onWorld (World.pushFrame .systemCall)
  Exec.bracket (fun ctx => ctx.setWorld ctx.world.popFrame) do
    if ← BlockContext.onWorld (rt.calls.enter (.applyBlock block)) then rt.applyBlock intent block

/-- The intent under which `controller::apply_block` runs a block. -/
def blockIntent (proposeBlock : Bool) : Intent := if proposeBlock then .blockProposal else .blockApplication

/-- The part of `controller::apply_block` that runs a block on its node and obtains the receipt. -/
def controllerApplyBlock (proposeBlock : Bool) (block : Block) : BlockM σ BlockReceipt := do
  rt.callApplyBlock (blockIntent proposeBlock) block
  let ctx ← get
  let failed := ctx.failedTransactionIndices.length
  Exec.require (!(proposeBlock && failed != 0))
    ⟨.failure .failure, text (toString failed ++ " transactions failed in the block"), [("n", .number failed)]⟩
  match ctx.world.receipt with
  | .block receipt => pure receipt
  | _ => throw ⟨.failure .unexpectedReceipt, text "expected block receipt", []⟩

end ApplyBlock

end Runtime

end Teleno.Chain
