import Teleno.BlockStore.SkipList
import Teleno.Library.Exec
import Teleno.Chain.Messages

/-! # Block store

Two column families: the serialized record of every block under its id, and the topology of the highest
block. A record carries the ids of the ancestors that the skip list points to. Reading succeeds; a write may
fail, which is decided by the `Faults` of a call. Values may be anything, also bytes that are no record.
-/

namespace Teleno

open Library Chain Exec

/-- The two column families. -/
structure BlockStore where
  blocks : Bytes → Option Bytes
  highest : Option Bytes

namespace BlockStore

/-- The exceptions of the block store, and the standard ones it throws. -/
inductive StoreException where
  | blockNotPresent (message : String)
  | unexpectedHeight (message : String)
  | dbError (message : String)
  | invalidArgument (message : String)
  | runtimeError (message : String)
deriving DecidableEq

/-- `block_record`. -/
structure BlockRecord where
  blockId : Bytes
  blockHeight : UInt64
  block : Option Block
  receipt : Option BlockReceipt
  previousBlockIds : List Bytes
deriving DecidableEq

/-- `block_topology`. -/
structure BlockTopology where
  id : Bytes := []
  height : UInt64 := 0
  previous : Bytes := []
deriving DecidableEq

/-- The protobuf encodings. Only a message without any field has an empty encoding. -/
structure RecordCodec where
  serializeRecord : BlockRecord → Option Bytes
  parseRecord : Bytes → Option BlockRecord
  parse_serializeRecord : ∀ record bytes, serializeRecord record = some bytes → parseRecord bytes = some record
  serializeRecord_ne_nil : ∀ record, record.block.isSome → serializeRecord record ≠ some []
  serializeTopology : BlockTopology → Option Bytes
  parseTopology : Bytes → Option BlockTopology
  parse_serializeTopology : ∀ topology bytes, serializeTopology topology = some bytes →
    parseTopology bytes = some topology

/-- A position in a table as a number of bytes. -/
private def tableBytes (position : ℕ) : Bytes := List.replicate (position + 1) 0

private theorem lookup_tableBytes {α : Type} [DecidableEq α] {table : List α} {a : α} {bytes : Bytes}
    (serialized : (if a ∈ table then some (tableBytes (table.idxOf a)) else none) = some bytes) :
    table[bytes.length - 1]? = some a := by
  split at serialized
  · rename_i mem
    cases serialized
    rw [tableBytes, List.length_replicate, Nat.add_sub_cancel]
    exact List.getElem?_idxOf mem
  · contradiction

/-- An encoding of the records and topologies in two tables. -/
def RecordCodec.ofTables (records : List BlockRecord) (topologies : List BlockTopology) : RecordCodec where
  serializeRecord record := if record ∈ records then some (tableBytes (records.idxOf record)) else none
  parseRecord bytes := records[bytes.length - 1]?
  parse_serializeRecord _ _ serialized := lookup_tableBytes serialized
  serializeRecord_ne_nil := by
    intro record _ serialized
    split at serialized <;> cases serialized
  serializeTopology topology := if topology ∈ topologies then some (tableBytes (topologies.idxOf topology)) else none
  parseTopology bytes := topologies[bytes.length - 1]?
  parse_serializeTopology _ _ serialized := lookup_tableBytes serialized

/-- The writes of a call that fail. -/
structure Faults where
  block : Bool := false
  highest : Bool := false
deriving DecidableEq

structure AddBlockRequest where
  blockToAdd : Option Block
  hasHeader : Bool := true
  receiptToAdd : Option BlockReceipt := none

structure GetBlocksByIdRequest where
  blockIds : List Bytes
  returnBlock : Bool := false
  returnReceipt : Bool := false

structure GetBlocksByHeightRequest where
  headBlockId : Bytes
  ancestorStartHeight : UInt64
  numBlocks : UInt32
  returnBlock : Bool := false
  returnReceipt : Bool := false

structure BlockItem where
  blockId : Bytes
  blockHeight : UInt64
  block : Option Block := none
  receipt : Option BlockReceipt := none
deriving DecidableEq

def maxBlockRequest : ℕ := 1000

/-- The number of blocks that a request is answered with at most. -/
def GetBlocksByHeightRequest.count (req : GetBlocksByHeightRequest) : ℕ := min req.numBlocks.toNat maxBlockRequest

/-- A record as it is returned. -/
def BlockRecord.item (record : BlockRecord) (returnBlock returnReceipt : Bool) : BlockItem where
  blockId := record.blockId
  blockHeight := record.blockHeight
  block := if returnBlock then record.block else none
  receipt := if returnReceipt then record.receipt else none

/-- Follow the pointer towards the target: the id that was found, or the id and the height to go on with. -/
def BlockRecord.follow (record : BlockRecord) (target : ℕ) : Except StoreException (Bytes ⊕ Bytes × ℕ) :=
  let height := record.blockHeight.toNat
  if height = target then .ok (.inl record.blockId) else
  match getPreviousHeightIndex target height with
  | none => .error (.invalidArgument "goal height must be less than current height")
  | some (index, h) =>
    if index < 0 then .error (.unexpectedHeight "skip-list index out of range") else
    match record.previousBlockIds[index.toNat]? with
    | none => .error (.unexpectedHeight "skip-list index out of range")
    | some previous => if h = target then .ok (.inl previous) else .ok (.inr (previous, h))

variable (codec : RecordCodec) (store : BlockStore)

/-- The bytes of a missing record are empty. -/
def getRecordBytes (id : Bytes) : Bytes := (store.blocks id).getD []

/-- A record that is there and can be parsed. -/
def record? (id : Bytes) : Option BlockRecord :=
  if (store.getRecordBytes id).isEmpty then none else codec.parseRecord (store.getRecordBytes id)

section Ancestors

/-- One round of the ancestor search. -/
def searchRound (target : ℕ) (id : Bytes) (expected : Option ℕ) :
    Except StoreException (Bytes ⊕ Bytes × ℕ) :=
  if (store.getRecordBytes id).isEmpty then
    .error (.blockNotPresent "block not found during ancestor traversal") else
  match codec.parseRecord (store.getRecordBytes id) with
  | none => .error (.dbError "failed to parse block record")
  | some record =>
    if expected.any (· ≠ record.blockHeight.toNat) then
      .error (.unexpectedHeight "height mismatch during ancestor traversal")
    else record.follow target

/-- The search for a number of rounds, if it ends within them. -/
def search (target : ℕ) : ℕ → Bytes → Option ℕ → Option (Except StoreException Bytes)
  | 0, _, _ => none
  | rounds + 1, id, expected =>
    match store.searchRound codec target id expected with
    | .error e => some (.error e)
    | .ok (.inl found) => some (.ok found)
    | .ok (.inr (previous, h)) => search target rounds previous (some h)

/-- Every round goes down, so the height of the first block bounds their number. -/
def searchRounds (id : Bytes) : ℕ := ((store.record? codec id).elim 0 (·.blockHeight.toNat)) + 1

def getAncestorIdAtHeight (id : Bytes) (target : ℕ) : Except StoreException Bytes :=
  (store.search codec target (store.searchRounds codec id) id none).getD
    (.error (.unexpectedHeight "no rounds left"))

end Ancestors

section Requests

/-- Walk back through the first pointers and collect the records. -/
def fillBlocks (returnBlock returnReceipt : Bool) : ℕ → Bytes → Option ℕ → List BlockItem
  | 0, _, _ => []
  | count + 1, id, expected =>
    if id.isEmpty then [] else
    match store.record? codec id with
    | none => []
    | some record =>
      if expected.any (· ≠ record.blockHeight.toNat) then [] else
      record.item returnBlock returnReceipt :: fillBlocks returnBlock returnReceipt count
        (record.previousBlockIds.head?.getD []) (some ((record.blockHeight.toNat + 2 ^ 64 - 1) % 2 ^ 64))

def getHighestBlockTopology : Option BlockTopology := store.highest.bind codec.parseTopology

/-- A missing topology is answered with a default one. -/
def getHighestBlock : BlockTopology := (store.getHighestBlockTopology codec).getD {}

def getBlocksById (req : GetBlocksByIdRequest) : List BlockItem :=
  (req.blockIds.take maxBlockRequest).filterMap fun id =>
    (store.record? codec id).map (·.item req.returnBlock req.returnReceipt)

/-- The `try` block of `get_blocks_by_height`. -/
def collectBlocks (req : GetBlocksByHeightRequest) : Except StoreException (List BlockItem) := do
  let start := req.ancestorStartHeight.toNat
  let startId ← store.getAncestorIdAtHeight codec req.headBlockId start
  if 1 < req.count then
    let endId ← store.getAncestorIdAtHeight codec req.headBlockId ((start + req.count - 1) % 2 ^ 64)
    pure (store.fillBlocks codec req.returnBlock req.returnReceipt req.count endId none).reverse
  else pure (store.fillBlocks codec req.returnBlock req.returnReceipt 1 startId none)

/-- The handlers of `get_blocks_by_height`: a missing block and an unexpected height give an empty list. -/
def emptyIfMissing : Except StoreException (List BlockItem) → Except StoreException (List BlockItem)
  | .error (.blockNotPresent _) => .ok []
  | .error (.unexpectedHeight _) => .ok []
  | outcome => outcome

def getBlocksByHeight (req : GetBlocksByHeightRequest) : Except StoreException (List BlockItem) :=
  if req.ancestorStartHeight = 0 then .ok []
  else if req.count = 0 then .ok []
  else emptyIfMissing (store.collectBlocks codec req)

end Requests

/-- The pointers of a new block. The parent's is not looked up. -/
def skipPointers (previous : Bytes) (height : ℕ) : Except StoreException (List Bytes) :=
  if 1 < height then
    (getPreviousHeights height).mapM fun h =>
      if h = height - 1 then .ok previous else store.getAncestorIdAtHeight codec previous h
  else if height = 1 then .ok [previous]
  else .ok []

/-- The record of a new block. -/
def newRecord (block : Block) (receipt : Option BlockReceipt) (pointers : List Bytes) : BlockRecord :=
  ⟨block.id, block.header.height.toUInt64, some block, receipt, pointers⟩

/-- The topology of a new block. -/
def newTopology (block : Block) : BlockTopology :=
  { id := block.id, height := block.header.height.toUInt64, previous := block.header.previous }

/-- The store with a new record. -/
def withRecord (id bytes : Bytes) : BlockStore :=
  { store with blocks := Function.update store.blocks id (some bytes) }

theorem getRecordBytes_of_update {store store' : BlockStore} {id bytes : Bytes}
    (written : store'.blocks = (store.withRecord id bytes).blocks) (k : Bytes) :
    store'.getRecordBytes k = if k = id then bytes else store.getRecordBytes k := by
  simp only [getRecordBytes, written, withRecord, Function.update_apply]
  split <;> rfl

abbrev StoreM := EStateM StoreException BlockStore

section Writes

variable (faults : Faults)

def putRecordBytes (id value : Bytes) : StoreM Unit := do
  Exec.require (!faults.block) (.dbError "RocksDB put failed")
  modify (·.withRecord id value)

def updateHighestBlock (topology : BlockTopology) : StoreM Unit := do
  match codec.serializeTopology topology with
  | none => throw (.dbError "Failed to serialize block topology")
  | some value =>
    Exec.require (!faults.highest) (.dbError "RocksDB meta put failed")
    modify fun store => { store with highest := some value }

/-- The metadata start at the genesis. -/
def initializeMetadata : StoreM Unit := do
  match (← get).getHighestBlockTopology codec with
  | some _ => pure ()
  | none => updateHighestBlock codec faults { id := List.replicate 34 0 }

/-- The end of `add_block`, after the record has been written. -/
def raiseHighest (block : Block) : StoreM Unit := do
  match (← get).getHighestBlockTopology codec with
  | none => pure ()
  | some current =>
    if current.height < block.header.height.toUInt64 then
      updateHighestBlock codec faults (newTopology block)
    else pure ()

/-- A new record is built, written and may raise the highest block. A block whose ancestors are missing is
left out without an error. -/
def insertBlock (block : Block) (receipt : Option BlockReceipt) : StoreM Unit := do
  match (← get).skipPointers codec block.header.previous block.header.height.toUInt64.toNat with
  | .error _ => pure ()
  | .ok pointers =>
    match codec.serializeRecord (newRecord block receipt pointers) with
    | none => throw (.dbError "failed to serialize block record")
    | some bytes =>
      putRecordBytes faults block.id bytes
      raiseHighest codec faults block

/-- A block that is there already is not written again. -/
def addBlock (req : AddBlockRequest) : StoreM Unit := do
  match req.blockToAdd with
  | none => throw (.runtimeError "expected field block_to_add was nil")
  | some block =>
    Exec.require req.hasHeader (.runtimeError "expected field block_to_add was nil")
    if ((← get).getRecordBytes block.id).isEmpty then insertBlock codec faults block req.receiptToAdd
    else pure ()

/-- A block that is not there yet, with its pointers and the bytes of its record. -/
structure Insertion (req : AddBlockRequest) (block : Block) (bytes : Bytes) : Prop where
  asked : req.blockToAdd = some block
  header : req.hasHeader = true
  missing : (store.getRecordBytes block.id).isEmpty = true
  serialized : ∃ pointers,
    store.skipPointers codec block.header.previous block.header.height.toUInt64.toNat = .ok pointers ∧
    codec.serializeRecord (newRecord block req.receiptToAdd pointers) = some bytes

/-- What `add_block` can do. -/
inductive Outcome (req : AddBlockRequest) : EStateM.Result StoreException BlockStore Unit → Prop
  | refused {e : StoreException} : Outcome req (.error e store)
  | present {block : Block} (asked : req.blockToAdd = some block)
      (stored : (store.getRecordBytes block.id).isEmpty = false) : Outcome req (.ok () store)
  | omitted {block : Block} {e : StoreException} (asked : req.blockToAdd = some block)
      (missing : (store.getRecordBytes block.id).isEmpty = true)
      (lost : store.skipPointers codec block.header.previous block.header.height.toUInt64.toNat = .error e) :
      Outcome req (.ok () store)
  | written {block : Block} {bytes : Bytes} (insertion : store.Insertion codec req block bytes)
      (top : ∀ current, store.getHighestBlockTopology codec = some current →
        ¬ current.height < block.header.height.toUInt64) :
      Outcome req (.ok () (store.withRecord block.id bytes))
  | interrupted {block : Block} {bytes : Bytes} {current : BlockTopology} {e : StoreException}
      (insertion : store.Insertion codec req block bytes) (put : faults.block = false)
      (highest : store.getHighestBlockTopology codec = some current)
      (higher : current.height < block.header.height.toUInt64)
      (fails : faults.highest = true ∨ codec.serializeTopology (newTopology block) = none) :
      Outcome req (.error e (store.withRecord block.id bytes))
  | raised {block : Block} {bytes value : Bytes} {current : BlockTopology}
      (insertion : store.Insertion codec req block bytes)
      (highest : store.getHighestBlockTopology codec = some current)
      (higher : current.height < block.header.height.toUInt64)
      (serialized : codec.serializeTopology (newTopology block) = some value) :
      Outcome req (.ok () { store.withRecord block.id bytes with highest := some value })

variable {codec store faults}

variable {block : Block}

/-- A new block whose record can be written. -/
theorem addBlock_of_insertion {req : AddBlockRequest} {bytes : Bytes}
    (insertion : store.Insertion codec req block bytes) (put : faults.block = false) :
    addBlock codec faults req store = raiseHighest codec faults block (store.withRecord block.id bytes) := by
  obtain ⟨pointers, looked, serialized⟩ := insertion.serialized
  have ok : putRecordBytes faults block.id bytes store = .ok () (store.withRecord block.id bytes) := by
    rw [putRecordBytes, put]
    rfl
  rw [addBlock, insertion.asked]
  dsimp only
  rw [insertion.header, bind_of_ok (require_true _ store), get_bind, if_pos insertion.missing,
    insertBlock, get_bind, looked]
  dsimp only
  rw [serialized]
  dsimp only
  rw [bind_of_ok ok]

/-- The topology of a new highest block cannot be written. -/
theorem raiseHighest_of_fails {current : BlockTopology} (highest : store.getHighestBlockTopology codec = some current)
    (higher : current.height < block.header.height.toUInt64)
    (fails : faults.highest = true ∨ codec.serializeTopology (newTopology block) = none) :
    ∃ e, raiseHighest codec faults block store = .error e store := by
  rw [raiseHighest, get_bind, highest]
  dsimp only
  rw [if_pos higher, updateHighestBlock]
  cases serialized : codec.serializeTopology (newTopology block) with
  | none => exact ⟨_, rfl⟩
  | some value =>
    rcases fails with failing | unserialized
    · dsimp only
      rw [failing]
      exact ⟨_, rfl⟩
    · rw [serialized] at unserialized
      contradiction

theorem outcome_raiseHighest {req : AddBlockRequest} {bytes : Bytes} (insertion : store.Insertion codec req block bytes)
    (put : faults.block = false) :
    store.Outcome codec faults req (raiseHighest codec faults block (store.withRecord block.id bytes)) := by
  have same : (store.withRecord block.id bytes).getHighestBlockTopology codec =
      store.getHighestBlockTopology codec := rfl
  cases highest : store.getHighestBlockTopology codec with
  | none =>
    rw [raiseHighest, get_bind, same, highest]
    exact .written insertion (by simp [highest])
  | some current =>
    by_cases higher : current.height < block.header.height.toUInt64
    · by_cases fails : faults.highest = true ∨ codec.serializeTopology (newTopology block) = none
      · obtain ⟨e, err⟩ := raiseHighest_of_fails (same.trans highest) higher fails
        rw [err]
        exact .interrupted insertion put highest higher fails
      · rw [not_or, Bool.not_eq_true, ← ne_eq, Option.ne_none_iff_exists'] at fails
        obtain ⟨succeeds, value, serialized⟩ := fails
        rw [raiseHighest, get_bind, same, highest]
        dsimp only
        rw [if_pos higher, updateHighestBlock, serialized, succeeds]
        exact .raised insertion highest higher serialized
    · rw [raiseHighest, get_bind, same, highest]
      dsimp only
      rw [if_neg higher]
      exact .written insertion (by simpa [highest] using higher)

variable (codec store faults)

theorem outcome_addBlock (req : AddBlockRequest) :
    store.Outcome codec faults req (addBlock codec faults req store) := by
  cases asked : req.blockToAdd with
  | none =>
    rw [addBlock, asked]
    exact .refused
  | some block =>
    cases header : req.hasHeader with
    | false =>
      rw [addBlock, asked, header]
      exact .refused
    | true =>
      cases missing : (store.getRecordBytes block.id).isEmpty with
      | false =>
        rw [addBlock, asked, header]
        dsimp only
        rw [bind_of_ok (require_true _ store), get_bind, missing]
        exact .present asked missing
      | true =>
        have inserts : addBlock codec faults req store = insertBlock codec faults block req.receiptToAdd store := by
          rw [addBlock, asked, header]
          dsimp only
          rw [bind_of_ok (require_true _ store), get_bind, missing, if_pos rfl]
        cases looked : store.skipPointers codec block.header.previous block.header.height.toUInt64.toNat with
        | error e =>
          rw [inserts, insertBlock, get_bind, looked]
          exact .omitted asked missing looked
        | ok pointers =>
          cases serialized : codec.serializeRecord (newRecord block req.receiptToAdd pointers) with
          | none =>
            rw [inserts, insertBlock, get_bind, looked]
            dsimp only
            rw [serialized]
            exact .refused
          | some bytes =>
            have insertion : store.Insertion codec req block bytes :=
              ⟨asked, header, missing, pointers, looked, serialized⟩
            cases put : faults.block with
            | false =>
              rw [addBlock_of_insertion insertion put]
              exact outcome_raiseHighest insertion put
            | true =>
              have err : putRecordBytes faults block.id bytes store =
                  .error (.dbError "RocksDB put failed") store := by
                rw [putRecordBytes, put]
                rfl
              rw [inserts, insertBlock, get_bind, looked]
              dsimp only
              rw [serialized]
              dsimp only
              rw [bind_of_error err]
              exact .refused

end Writes

end BlockStore

end Teleno
