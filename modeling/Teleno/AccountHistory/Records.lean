import Teleno.Mempool.Node

/-! # The account history's records and counters

Every accepted block adds one record for each address it involves. The records of all addresses and the counter of
each address share one ordered key space: a record is stored under the address followed by its number, a counter
under `meta:` followed by the address. A query walks the keys that start with its address.
-/

namespace Teleno.AccountHistory

open Mempool (bigEndian readBigEndian)

/-- `operation`, with the contract it calls or uploads. -/
inductive Operation where
  | callContract (contractId : Bytes)
  | uploadContract (contractId : Bytes)
  | other
deriving DecidableEq

structure TransactionHeader where
  payer : Bytes := []
  payee : Bytes := []
deriving DecidableEq

structure Transaction where
  header : Option TransactionHeader := none
  operations : List Operation := []
deriving DecidableEq

structure Block where
  id : Bytes := []
  height : UInt64 := 0
  signer : Bytes := []
  transactions : List Transaction := []
deriving DecidableEq

/-- `broadcast::block_accepted`. -/
structure BlockAccepted where
  block : Option Block := none
deriving DecidableEq

/-- `account_history_entry` with a block record, whose `previous` holds the id of the block. -/
structure Entry where
  seqNum : UInt64
  height : UInt64
  previous : Bytes
deriving DecidableEq

/-- The protobuf encoding of the records. -/
structure RecordCodec where
  serialize : Entry → Bytes
  parse : Bytes → Option Entry
  parse_serialize : ∀ entry, parse (serialize entry) = some entry

/-- The column family, with its keys in bytewise order. -/
abbrev Store := Std.ExtTreeMap Bytes Bytes

def encodeSeq (seq : UInt64) : Bytes := bigEndian 8 seq.toNat

def decodeSeq (s : Bytes) : UInt64 :=
  if s.length < 8 then 0 else UInt64.ofNat (readBigEndian (s.take 8))

def metaKey (address : Bytes) : Bytes := [0x6d, 0x65, 0x74, 0x61, 0x3a] ++ address

def recordKey (address : Bytes) (seq : UInt64) : Bytes := address ++ encodeSeq seq

/-- The number that `next_sequence` finds under the counter's key. -/
def Store.sequence (store : Store) (address : Bytes) : UInt64 :=
  match store[metaKey address]? with
  | some value => if value.length = 8 then decodeSeq value else 0
  | none => 0

/-- `next_sequence`: the number of the new record and the store with the next one. -/
def nextSequence (address : Bytes) (store : Store) : UInt64 × Store :=
  (store.sequence address, store.insert (metaKey address) (encodeSeq (store.sequence address + 1)))

def storeRecord (codec : RecordCodec) (address : Bytes) (seq : UInt64) (blockId : Bytes) (blockHeight : UInt64)
    (store : Store) : Store :=
  store.insert (recordKey address seq) (codec.serialize { seqNum := seq, height := blockHeight, previous := blockId })

namespace Operation

def contract : Operation → Bytes
  | callContract contractId => contractId
  | uploadContract contractId => contractId
  | other => []

end Operation

def Transaction.addresses (tx : Transaction) : List Bytes :=
  (match tx.header with
    | some header => [header.payer, header.payee]
    | none => []) ++ tx.operations.map Operation.contract

/-- The addresses that a block impacts, in the order of the set. -/
def Block.addresses (block : Block) : List Bytes :=
  let found := (block.signer :: block.transactions.flatMap Transaction.addresses).filter (· ≠ [])
  (found.foldl (fun (set : Std.ExtTreeSet Bytes) address => set.insert address) ∅).toList

/-- The loop over the addresses of a block. -/
def storeRecords (codec : RecordCodec) (block : Block) : List Bytes → Store → Store
  | [], store => store
  | address :: rest, store =>
    let (seq, counted) := nextSequence address store
    storeRecords codec block rest (storeRecord codec address seq block.id block.height counted)

def handleBlockAccepted (codec : RecordCodec) (store : Store) (ba : BlockAccepted) : Store :=
  match ba.block with
  | none => store
  | some block => storeRecords codec block block.addresses store

/-- `get_account_history_request`. -/
structure Request where
  address : Bytes
  seqNum : UInt64 := 0
  limit : ℕ := 0
  ascending : Bool := false

def maxRecordsPerQuery : ℕ := 500

/-- The limit as the query clamps it, after a cast to 32 bits. -/
def Request.pageSize (req : Request) : ℕ :=
  if 0 < req.limit then min (req.limit % 2 ^ 32) maxRecordsPerQuery else maxRecordsPerQuery

/-- The key is longer than the address and starts with it. -/
def Extends (address key : Bytes) : Prop := address.length < key.length ∧ address <+: key

instance (address key : Bytes) : Decidable (Extends address key) :=
  inferInstanceAs (Decidable (_ ∧ _))

/-- The loop of a query over the entries from the iterator on. -/
def collect (codec : RecordCodec) (address : Bytes) : ℕ → List (Bytes × Bytes) → List Entry
  | 0, _ => []
  | _, [] => []
  | count + 1, (key, value) :: rest =>
    if Extends address key then (codec.parse value).toList ++ collect codec address count rest else []

/-- The entries from the first key that is not below the target on. -/
def Store.seek (store : Store) (target : Bytes) : List (Bytes × Bytes) :=
  store.toList.filter fun entry => (compare target entry.1).isLE

/-- The entries from the last key that is not above the target on, backwards. -/
def Store.seekForPrev (store : Store) (target : Bytes) : List (Bytes × Bytes) :=
  (store.toList.filter fun entry => (compare entry.1 target).isLE).reverse

def getAccountHistory (codec : RecordCodec) (store : Store) (req : Request) : List Entry :=
  if req.address = [] then []
  else if req.ascending ∨ req.seqNum = 0 then
    collect codec req.address req.pageSize (store.seek (recordKey req.address req.seqNum))
  else collect codec req.address req.pageSize (store.seekForPrev (recordKey req.address req.seqNum))

/-- The store after these blocks were accepted. -/
def index (codec : RecordCodec) (history : List BlockAccepted) : Store :=
  history.foldl (handleBlockAccepted codec) ∅

end Teleno.AccountHistory
