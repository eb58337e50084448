import Teleno.Chain.Thunks

/-! # System calls and the host API

A system call gets a frame of its own, is resolved through the system call table, and runs either an
overriding contract or a thunk. Native code calls with typed arguments; contracts call with bytes, through
`invoke_system_call` or, in kernel mode, through `invoke_thunk`, which pushes no frame.

Thunks make system calls and run contracts, which call the host again. The recursion is cut at a level, and
every level pushes at least one frame: a system call its own, `call` the contract's. So with as many levels
as the stack may have frames, the stack overflows before the levels are used up.
-/

namespace Teleno.Chain

open Library StateDb

namespace Platform

variable (p : Platform)

/-- A thunk for every system call. -/
abbrev ThunkTable := (id : SystemCallId) → id.Args → HostM id.Result

section Call

variable (level : Level) (thunks : ThunkTable)

def badAnyCast : ChainException := ⟨.foreign, text "bad any_cast", []⟩

/-- A callback can stand in for a callback; all of them do nothing. -/
def callback : (id : SystemCallId) → HostM id.Result
  | .preBlockCallback => pure ()
  | .postBlockCallback => pure ()
  | .preTransactionCallback => pure ()
  | .postTransactionCallback => pure ()
  | .nop => pure ()
  | _ => throw badAnyCast

/-- Calling a thunk with typed arguments casts it to the signature of the system call. -/
def callTyped (id target : SystemCallId) (args : id.Args) : HostM id.Result :=
  if target = id then thunks id args
  else if target.isCallback then callback id
  else throw badAnyCast

/-- What a system call of native code runs. -/
def dispatch (id : SystemCallId) (args : id.Args) : CallTarget → HostM id.Result
  | .contract contractId bytecode entryPoint metadata => do
    let result ← p.runOverride level contractId bytecode entryPoint metadata (p.argsBytes id args)
    requireSuccess result
    if id = .exit then throw successException else
    pure (p.parseResult id result.res.getObject)
  | .thunk thunkId isOverride => do
    let number ← MonadExcept.ofExcept (p.thunkTranslation (p.number id) thunkId isOverride)
    match p.ofNumber number with
    | none => throw ⟨.reversion .unknownThunk, text ("unrecognized thunk id " ++ toString number),
        [("id", .number number.toNat)]⟩
    | some target =>
      p.charge target.name 1
      callTyped thunks id target args

/-- A system call made by native code. -/
def systemCall (id : SystemCallId) (args : id.Args) : HostM id.Result :=
  World.withStackFrame .systemCall do
    p.dispatch level thunks id args (← p.resolve (p.number id))

def insufficientReturnBuffer : ChainException :=
  ⟨.reversion .insufficientReturnBuffer, text "return buffer is not large enough for the return value", []⟩

/-- Calling a thunk with bytes. -/
def callThunk (id : SystemCallId) (retLen : ℕ) (args : Bytes) : HostM Bytes := do
  p.charge "deserialize_message_per_byte" args.length.toUInt64
  let result ← thunks id (p.parseArgs id args)
  let bytes := if id.isVoid then [] else p.resultBytes id result
  Exec.require (bytes.length ≤ retLen) insufficientReturnBuffer
  pure bytes

def unknownThunk (tid : UInt32) (outcome : String) : ChainException :=
  ⟨.reversion .unknownThunk, text ("thunk " ++ toString tid ++ outcome), [("tid", .number tid.toNat)]⟩

/-- `host_api::call`. The code of an overriding contract's result is not looked at. -/
def hostCall (sid : UInt32) (retLen : ℕ) (args : Bytes) : HostM Bytes :=
  World.withStackFrame .systemCall do
    match ← p.resolve sid with
    | .contract contractId bytecode entryPoint metadata =>
      let result ← p.runOverride level contractId bytecode entryPoint metadata args
      Exec.require (result.res.getObject.length ≤ retLen) insufficientReturnBuffer
      pure result.res.getObject
    | .thunk thunkId isOverride =>
      let number ← MonadExcept.ofExcept (p.thunkTranslation sid thunkId isOverride)
      match p.ofNumber number with
      | none => throw (unknownThunk number " does not exist")
      | some target =>
        p.charge target.name 1
        p.callThunk thunks target retLen args

/-- `catch( const koinos::exception& )` around a host call. -/
def caught (program : HostM Bytes) : HostM (Except ChainException Bytes) := do
  match ← Exec.attempt program with
  | .ok bytes => pure (.ok bytes)
  | .error e => if e.isKoinos then pure (.error e) else throw e

/-- What a code throws when it is not returned to the contract. -/
def codeException (code : ℤ) (e : ChainException) : ChainException :=
  if isReversionCode code then { e with type := .reversion (.other code) }
  else if isFailureCode code then { e with type := .failure (.other code) }
  else successException

/-- The answer to the contract. `exit` does not return to it. -/
def answer (isExit : Bool) (retLen : ℕ) : Except ChainException Bytes → HostM Reply
  | .ok bytes => if isExit then throw successException else pure ⟨0, bytes⟩
  | .error e =>
    let code := p.errorCode e.type
    if isExit then throw (codeException code e)
    else if code = 0 then pure ⟨0, []⟩
    else if (p.errorBytes e).length ≤ retLen then pure ⟨code, p.errorBytes e⟩
    else pure ⟨p.errorCode (.reversion .insufficientReturnBuffer), []⟩

def invokeThunk (tid : UInt32) (retLen : ℕ) (args : Bytes) : HostM Reply := do
  let privilege ← World.getPrivilege
  Exec.require (privilege = .kernelMode)
    ⟨.reversion .insufficientPrivileges, text "'invoke_thunk' must be called from a system context", []⟩
  let outcome ← caught <| match p.ofNumber tid with
    | none => throw (unknownThunk tid " not found")
    | some id => p.callThunk thunks id retLen args
  p.answer (tid = p.number .exit) retLen outcome

/-- A reversion always ends a contract in user mode. -/
def invokeSystemCall (sid : UInt32) (retLen : ℕ) (args : Bytes) : HostM Reply := do
  let outcome ← caught (p.hostCall level thunks sid retLen args)
  let privilege ← World.getPrivilege
  match outcome with
  | .ok _ => pure ()
  | .error e =>
    let code := p.errorCode e.type
    Exec.require (!(privilege = .userMode && isReversionCode code)) (codeException code e)
  p.answer (sid = p.number .exit) retLen outcome

def getMeterTicks : HostM Reply := do
  let w ← get
  pure ⟨min (w.meter.availableComputeBandwidth w.session).toNat Int64.maxValue.toInt, []⟩

/-- More ticks than there are use up the rest and then fail. -/
def useMeterTicks (ticks : UInt64) : HostM Reply := do
  let w ← get
  let available := w.meter.availableComputeBandwidth w.session
  if available < ticks then do
    World.useComputeBandwidth available.toInt64
    World.useComputeBandwidth 1
  else World.useComputeBandwidth ticks.toInt64
  pure {}

def host : HostCall → HostM Reply
  | .invokeThunk tid retLen args => p.invokeThunk thunks tid retLen args
  | .invokeSystemCall sid retLen args => p.invokeSystemCall level thunks sid retLen args
  | .getMeterTicks => getMeterTicks
  | .useMeterTicks ticks => useMeterTicks ticks

end Call

variable (intent : Intent)

/-- The level above a level. -/
def next (level : Level) : Level where
  sys := p.systemCall level (p.thunk intent level)
  host := p.host level (p.thunk intent level)

def stackOverflow : ChainException := ⟨.reversion .reversion, text "apply context stack overflow", []⟩

/-- The lowest level is only reached on a full stack. -/
def levels : ℕ → Level
  | 0 => { sys := fun _ _ => throw stackOverflow, host := fun _ => throw stackOverflow }
  | n + 1 => p.next intent (levels n)

/-- The system calls and the host of an execution context. -/
def top : Level := p.levels intent World.stackLimit

/-- The runtime of the chain. -/
def chain : Runtime Host := p.runtime (p.top intent)

section Transparent

/-- The arguments in an empty message. -/
def emptyArgs : (id : SystemCallId) → id.Args
  | .applyBlock => {}
  | .applyTransaction => {}
  | .applyUploadContractOperation => {}
  | .applyCallContractOperation => {}
  | .applySetSystemCallOperation => ⟨0, .thunk 0⟩
  | .applySetSystemContractOperation => {}
  | .processBlockSignature => ([], {}, [])
  | .getTransactionField | .getBlockField | .getAccountNonce | .getAccountRc | .log => []
  | .verifyAccountNonce | .setAccountNonce => ([], [])
  | .consumeAccountRc => ([], 0)
  | .consumeBlockResources => (0, 0, 0)
  | .putObject => ({}, [], [])
  | .removeObject | .getObject | .getNextObject | .getPrevObject => ({}, [])
  | .event => ([], [], [])
  | .hash => (0, [], 0)
  | .recoverPublicKey => (.ecdsaSecp256k1, [], [], false)
  | .verifyMerkleRoot => ([], [])
  | .verifySignature => (.ecdsaSecp256k1, [], [], [], false)
  | .verifyVrfProof => (.ecdsaSecp256k1, [], [], [], [])
  | .call => ([], 0, [])
  | .exit => (0, .unset)
  | .checkAuthority => (.contractCall, [], [])
  | .getHeadInfo | .preBlockCallback | .postBlockCallback | .preTransactionCallback | .postTransactionCallback
  | .getChainId | .getTransaction | .getBlock | .getLastIrreversibleBlock | .checkSystemAuthority | .getOperation
  | .getResourceLimits | .getArguments | .getContractId | .getCaller | .nop => ()

/-- The value in an empty result message. -/
def emptyResult : (id : SystemCallId) → id.Result
  | .getHeadInfo => ⟨[], [], 0, 0, 0⟩
  | .getTransaction => {}
  | .getBlock => {}
  | .getOperation => .unset
  | .getLastIrreversibleBlock => (0 : ℕ)
  | .getAccountRc => (0 : UInt64)
  | .getResourceLimits => {}
  | .getObject | .getNextObject | .getPrevObject => none
  | .getChainId | .getTransactionField | .getBlockField | .getAccountNonce | .hash | .recoverPublicKey | .call
  | .getContractId => []
  | .getArguments => ⟨0, []⟩
  | .getCaller => ⟨[], .kernelMode⟩
  | .processBlockSignature | .verifyAccountNonce | .checkSystemAuthority | .consumeAccountRc
  | .consumeBlockResources | .verifyMerkleRoot | .verifySignature | .verifyVrfProof | .checkAuthority => false
  | .applyBlock | .applyTransaction | .applyUploadContractOperation | .applyCallContractOperation
  | .applySetSystemCallOperation | .applySetSystemContractOperation | .preBlockCallback | .postBlockCallback
  | .preTransactionCallback | .postTransactionCallback | .setAccountNonce | .putObject | .removeObject | .log
  | .event | .exit | .nop => ()

def transparentSpace : SystemSpace → ℕ
  | .contractBytecode => 0
  | .contractMetadata => 1
  | .systemCallDispatch => 2
  | .metadata => 3
  | .transactionNonce => 4

/-- The prices of the transparent platform: every operation is free. -/
def freeRegistry : List (String × UInt64) :=
  ((List.range 46).map fun n => (SystemCallId.ofNat n).name).map (·, 0) ++
    ["object_serialization_per_byte", "deserialize_message_per_byte", "event_per_impacted", "hash_base",
      "hash_per_byte", "deserialize_multihash_base", "deserialize_multihash_per_byte"].map (·, 0)

/-- A platform whose encodings can be read off, for contracts that are given as what they do. All system
objects of the metadata space have one key, digests and addresses are empty, nonces are counted in bytes, and a
contract is a system contract if its metadata starts with a one. -/
def transparent (limits : ResourceLimitData) (parseArgs : (id : SystemCallId) → Bytes → id.Args)
    (vm : Bytes → Bytes → Contract) : Platform where
  crypto := ⟨fun _ => [], fun _ => []⟩
  codec := .transparent
  encoding :=
    { blockHeader := fun _ => []
      block := fun _ => []
      transactionHeader := fun _ => []
      transaction := fun _ => []
      operation := fun _ => []
      parseMultihash := fun bytes => .ok (0, bytes)
      parseVarint := fun _ => .ok 0
      toBase58 := id
      toHex := id
      validateUtf := fun bytes => bytes.all (· < 128)
      metadata := { system := true } }
  number id := id.ctorIdx.toUInt32
  ofNumber n := if n.toNat < 46 then some (.ofNat n.toNat) else none
  ofNumber_number id := by cases id <;> rfl
  spaceId := transparentSpace
  spaceId_injective := by
    intro s t same
    cases s <;> cases t <;> first | rfl | contradiction
  errorCode
    | .reversion (.other code) => code
    | .reversion _ => 1
    | .failure (.other code) => code
    | .failure _ => -1
    | .success => 0
    | .otherKoinos code => code
    | .foreign => 1
  errorBytes _ := []
  parseArgs := parseArgs
  argsBytes _ _ := []
  parseResult id _ := emptyResult id
  resultBytes _ _ := []
  callKey number := [number.toUInt8]
  parseTarget
    | 1 :: contractId => .ok (.systemCallBundle contractId 0)
    | bytes => .ok (.thunk bytes.length.toUInt32)
  targetBytes
    | .thunk thunkId => List.replicate thunkId.toNat 0
    | .systemCallBundle contractId _ => 1 :: contractId
  parseMetadata bytes := .ok { hash := [0], system := bytes.head? = some 1 }
  metadataBytes metadata := [if metadata.system then 1 else 0]
  parseRegistry _ := .ok freeRegistry
  parseLimits _ := .ok limits
  parseMaxAccountResources _ := .ok 1000000
  parseTimestamp _ := .ok 0
  parseNonce bytes := .ok (some bytes.length.toUInt64)
  nonceBytes nonce := List.replicate nonce.toNat 0
  parseNonce_nonceBytes nonce := by simp
  transactionField _ _ _ := .ok []
  blockField _ _ _ := .ok []
  setSystemCallEvent _ := []
  setSystemContractEvent _ := []
  authorizeArguments _ _ := []
  parseAuthorizeResult _ := .ok true
  topology _ node := ([], [], node)
  hashName _ := some "hash"
  hash _ _ _ := .ok []
  digestLength _ := 0
  merkleTree _ _ := []
  isCanonical _ := true
  recover _ _ := .ok (some fun _ => [])
  address _ := .ok []
  verifyRandomProof _ _ _ := .ok (some [])
  vm := vm

/-- The node of a block over a root that has the metadata object and these objects of the system. -/
def transparentHeap (objects : List (SystemSpace × Bytes × Bytes)) : Heap :=
  let root : Heap := Heap.empty.push { backend := some {} }
  let stored := ((.metadata, [], []) :: objects).foldl (fun (heap : Heap) (s, key, value) =>
    heap.put 0 (KeyCodec.transparent.serialize ⟨⟨true, [], transparentSpace s⟩, key⟩) value) root
  stored.makeChild 0 [] {}

end Transparent

end Platform

end Teleno.Chain
