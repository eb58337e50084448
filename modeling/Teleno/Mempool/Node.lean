import Mathlib.Algebra.Ring.Nat
import Teleno.Library.Exec
import Teleno.Library.KeyOrder
import Teleno.StateDb.View

/-! # The mempool's objects on one node

Five object spaces of a state node hold the pending transactions of a fork: the records under their
sequence numbers, the sequence numbers under the transaction ids, the resources each payer has
reserved, the nonces in use, and the next sequence number. The functions here read and write those
objects on a single node, like the `_on_node` members of `mempool_impl`.
-/

namespace Teleno.Mempool

open Library StateDb

/-- A number as `k` big-endian bytes. -/
def bigEndian : ℕ → ℕ → Bytes
  | 0, _ => []
  | k + 1, n => bigEndian k (n / 256) ++ [UInt8.ofNat n]

def readBigEndian (bytes : Bytes) : ℕ := bytes.foldl (fun n byte => n * 256 + byte.toNat) 0

theorem readBigEndian_bigEndian (k n : ℕ) : readBigEndian (bigEndian k n) = n % 256 ^ k := by
  induction k generalizing n with
  | zero => rw [Nat.pow_zero, Nat.mod_one]; rfl
  | succ k ih =>
    have last : (UInt8.ofNat n).toNat = n % 256 := rfl
    simp only [readBigEndian] at ih ⊢
    rw [bigEndian, List.foldl_append, ih, List.foldl_cons, List.foldl_nil, last, Nat.pow_succ', Nat.mod_mul]
    omega

theorem length_bigEndian (k n : ℕ) : (bigEndian k n).length = k := by
  induction k generalizing n with
  | zero => rfl
  | succ k ih => rw [bigEndian, List.length_append, ih, List.length_singleton]

theorem compare_bigEndian {k m n : ℕ} (less : m < n) (fits : n < 256 ^ k) :
    compare (bigEndian k m) (bigEndian k n) = .lt := by
  induction k generalizing m n with
  | zero => omega
  | succ k ih =>
    rw [bigEndian, bigEndian, KeyOrder.compare_concat ((length_bigEndian k _).trans (length_bigEndian k _).symm)]
    rw [Nat.pow_succ] at fits
    by_cases higher : m / 256 < n / 256
    · rw [ih higher (by omega)]
      rfl
    · have same : m / 256 = n / 256 := by omega
      have reflexive : compare (bigEndian k (n / 256)) (bigEndian k (n / 256)) = .eq := Std.ReflCmp.compare_self
      have last : compare (UInt8.ofNat m) (UInt8.ofNat n) = .lt := by
        have lower : UInt8.ofNat m < UInt8.ofNat n := by
          rw [UInt8.lt_iff_toNat_lt]
          change m % 256 < n % 256
          omega
        exact compareOfLessAndEq_eq_lt.mpr lower
      rw [same, reflexive, last]
      rfl

/-- `util::converter::as< std::string >( uint64_t )`. -/
def uint64Bytes (n : UInt64) : Bytes := bigEndian 8 n.toNat

theorem readBigEndian_uint64Bytes (n : UInt64) : readBigEndian (uint64Bytes n) = n.toNat := by
  rw [uint64Bytes, readBigEndian_bigEndian]
  exact Nat.mod_eq_of_lt n.toNat_lt

theorem uint64Bytes_injective : Function.Injective uint64Bytes := by
  intro m n same
  apply UInt64.toNat_inj.mp
  rw [← readBigEndian_uint64Bytes, same, readBigEndian_uint64Bytes]

/-- `pending_transaction`: the fields of the transaction that the mempool reads, and the others in
serialized form. -/
structure PendingTransaction where
  id : Bytes := []
  payer : Bytes := []
  payee : Bytes := []
  nonce : Bytes := []
  rcLimit : UInt64 := 0
  rest : Bytes := []
deriving DecidableEq

/-- `pending_transaction_record`; the timestamp counts milliseconds. -/
structure PendingTransactionRecord where
  transaction : PendingTransaction
  timestamp : UInt64
deriving DecidableEq

/-- `address_resource_record`. -/
structure AddressResourceRecord where
  maxRc : UInt64
  currentRc : UInt64
deriving DecidableEq

/-- `mempool_metadata`. -/
structure MempoolMetadata where
  seqNum : UInt64
deriving DecidableEq

/-- The protobuf encodings of the stored objects, each of which parses back, and of nonces. -/
structure Codec where
  keys : KeyCodec
  record : PendingTransactionRecord → Bytes
  parseRecord : Bytes → Option PendingTransactionRecord
  parse_record : ∀ r, parseRecord (record r) = some r
  resources : AddressResourceRecord → Bytes
  parseResources : Bytes → Option AddressResourceRecord
  parse_resources : ∀ r, parseResources (resources r) = some r
  metadata : MempoolMetadata → Bytes
  parseMetadata : Bytes → Option MempoolMetadata
  parse_metadata : ∀ r, parseMetadata (metadata r) = some r
  /-- `to< chain::value_type >( nonce ).uint64_value()`. -/
  nonceValue : Bytes → Option UInt64

section Transparent

/-- Two byte strings in one. -/
private def pair (left right : Bytes) : Bytes := KeyCodec.transparent.serialize ⟨{ zone := left }, right⟩

private def unpair (bytes : Bytes) : Option (Bytes × Bytes) :=
  (KeyCodec.transparent.parse bytes).map fun key => (key.space.zone, key.key)

private theorem unpair_pair (left right : Bytes) : unpair (pair left right) = some (left, right) := by
  rw [unpair, pair, KeyCodec.parse_serialize, Option.map_some]

private def readUInt64 (bytes : Bytes) : UInt64 := UInt64.ofNat (readBigEndian bytes)

private theorem readUInt64_uint64Bytes (n : UInt64) : readUInt64 (uint64Bytes n) = n := by
  rw [readUInt64, readBigEndian_uint64Bytes, UInt64.ofNat_toNat]

/-- Encodings that spell out every field. -/
def Codec.transparent : Codec where
  keys := .transparent
  record r := pair r.transaction.id (pair r.transaction.payer (pair r.transaction.payee
    (pair r.transaction.nonce (pair (uint64Bytes r.transaction.rcLimit)
      (pair (uint64Bytes r.timestamp) r.transaction.rest)))))
  parseRecord bytes := do
    let (id, bytes) ← unpair bytes
    let (payer, bytes) ← unpair bytes
    let (payee, bytes) ← unpair bytes
    let (nonce, bytes) ← unpair bytes
    let (rcLimit, bytes) ← unpair bytes
    let (timestamp, rest) ← unpair bytes
    pure ⟨⟨id, payer, payee, nonce, readUInt64 rcLimit, rest⟩, readUInt64 timestamp⟩
  parse_record r := by simp [unpair_pair, readUInt64_uint64Bytes]
  resources r := pair (uint64Bytes r.maxRc) (uint64Bytes r.currentRc)
  parseResources bytes := (unpair bytes).map fun (maxRc, currentRc) => ⟨readUInt64 maxRc, readUInt64 currentRc⟩
  parse_resources r := by simp [unpair_pair, readUInt64_uint64Bytes]
  metadata r := uint64Bytes r.seqNum
  parseMetadata bytes := some ⟨readUInt64 bytes⟩
  parse_metadata r := by simp [readUInt64_uint64Bytes]
  nonceValue bytes := some (readUInt64 bytes)

end Transparent

/-- What the mempool throws, with the source's message. -/
inductive MempoolError where
  /-- `transaction would exceed maximum resources for account: ${a}` -/
  | exceedsResources (payer : Bytes)
  /-- `cannot insert duplicate transaction` -/
  | insertionFailure
  /-- `cannot insert transaction for account with duplicate nonce - account: ${a}, nonce: ${n}`, and
  without values `transaction nonce conflict` -/
  | nonceConflict (values : Option (Bytes × Bytes))
  /-- A converter that cannot parse what it is given. -/
  | malformed
  /-- `std::out_of_range` from `_relevant_node_mutexes.at`. -/
  | missingMutex
  | stateDb (error : StateDbError)
  /-- The dereference of a null pointer: not an exception, the process is gone. -/
  | nullNode
  | outOfFuel
deriving DecidableEq

def MempoolError.isNonceConflict : MempoolError → Bool
  | nonceConflict _ => true
  | _ => false

namespace Space

def mempoolMetadata : ObjectSpace := { id := 1 }
def pendingTransaction : ObjectSpace := { id := 2 }
def transactionIndex : ObjectSpace := { id := 3 }
def addressResources : ObjectSpace := { id := 4 }
def accountNonce : ObjectSpace := { id := 5 }

end Space

/-- The account whose nonce a transaction uses, followed by that nonce. -/
def createAccountNonceKey (codec : Codec) (transaction : PendingTransaction) : Option Bytes :=
  (codec.nonceValue transaction.nonce).map fun nonce =>
    (if transaction.payee ≠ [] then transaction.payee else transaction.payer) ++ uint64Bytes nonce

/-- Programs over the nodes of a heap. -/
abbrev NodeM := EStateM MempoolError Heap

section Access

variable (codec : Codec) (p : ℕ)

def getObject (space : ObjectSpace) (key : Bytes) : NodeM (Option Bytes) := fun h =>
  .ok (h.getObject codec.keys p space key) h

def putObject (space : ObjectSpace) (key value : Bytes) : NodeM Unit := fun h =>
  match h.putObject codec.keys p space key value with
  | .ok (_, h') => .ok () h'
  | .error e => .error (.stateDb e) h

def removeObject (space : ObjectSpace) (key : Bytes) : NodeM Unit := fun h =>
  match h.removeObject codec.keys p space key false with
  | .ok (_, h') => .ok () h'
  | .error e => .error (.stateDb e) h

/-- The object after a key, with its key, if it lies in the same space. The merged iteration over the
deltas is taken as the sorted list of what the node shows. -/
def getNextObject (space : ObjectSpace) (key : Bytes) : NodeM (Option (Bytes × Bytes)) := fun h =>
  match h.nextKey p (codec.keys.serialize ⟨space, key⟩) with
  | none => .ok none h
  | some next =>
    match codec.keys.parse next with
    | none => .error .malformed h
    | some nextKey =>
      if nextKey.space = space then .ok ((h.find p next).map fun value => (value, nextKey.key)) h
      else .ok none h

/-- A conversion of stored bytes. -/
def convert {α : Type} (parsed : Option α) : NodeM α := parsed.elim (throw .malformed) pure

/-- A dereferenced pointer. -/
def dereference {σ α : Type} (pointer : Option α) : EStateM MempoolError σ α :=
  pointer.elim (throw .nullNode) pure

end Access

section OnNode

variable (codec : Codec) (p : ℕ)

/-- What an account with a resource record has left for one more transaction. -/
def newResources (arr : AddressResourceRecord) (maxPayerRc rcLimit : UInt64) : ℤ :=
  let maxDelta : ℤ := maxPayerRc.toNat - arr.maxRc.toNat
  arr.currentRc.toNat + maxDelta - rcLimit.toNat

def checkPendingAccountResourcesOnNode (payer : Bytes) (maxPayerResources trxResourceLimit : UInt64) :
    NodeM Bool := do
  match ← getObject codec p Space.addressResources payer with
  | some obj =>
    let arr ← convert (codec.parseResources obj)
    pure (0 ≤ newResources arr maxPayerResources trxResourceLimit)
  | none => pure (trxResourceLimit ≤ maxPayerResources)

def checkAccountNonceOnNode (accountNonceKey : Bytes) : NodeM Bool := do
  let obj ← getObject codec p Space.accountNonce accountNonceKey
  pure obj.isNone

/-- The next sequence number; the first one is 1. -/
def nextSeqNum : NodeM UInt64 := do
  match ← getObject codec p Space.mempoolMetadata [] with
  | some obj =>
    let metadata ← convert (codec.parseMetadata obj)
    pure metadata.seqNum
  | none => pure 1

/-- The payer's resource record with one more transaction, and the RC that record reserves. -/
def reserveResources (payer : Bytes) (maxPayerRc rcLimit : UInt64) :
    NodeM (AddressResourceRecord × UInt64) := do
  match ← getObject codec p Space.addressResources payer with
  | some obj =>
    let arr ← convert (codec.parseResources obj)
    let currentRc := UInt64.ofInt (newResources arr maxPayerRc rcLimit)
    pure (⟨maxPayerRc, currentRc⟩, maxPayerRc - currentRc)
  | none => pure (⟨maxPayerRc, maxPayerRc - rcLimit⟩, rcLimit)

def addPendingTransactionToNode (record : PendingTransactionRecord) (maxPayerRc : UInt64) :
    NodeM UInt64 := do
  let transaction := record.transaction
  let affordable ← checkPendingAccountResourcesOnNode codec p transaction.payer maxPayerRc transaction.rcLimit
  Exec.require affordable (.exceedsResources transaction.payer)
  let duplicate ← getObject codec p Space.transactionIndex transaction.id
  Exec.require duplicate.isNone .insertionFailure
  let accountNonceKey ← convert (createAccountNonceKey codec transaction)
  let unused ← checkAccountNonceOnNode codec p accountNonceKey
  Exec.require unused (.nonceConflict (some (transaction.payer, transaction.nonce)))
  let seqNum ← nextSeqNum codec p
  putObject codec p Space.mempoolMetadata [] (codec.metadata ⟨seqNum + 1⟩)
  putObject codec p Space.pendingTransaction (uint64Bytes seqNum) (codec.record record)
  putObject codec p Space.transactionIndex transaction.id (uint64Bytes seqNum)
  let (arr, rcUsed) ← reserveResources codec p transaction.payer maxPayerRc transaction.rcLimit
  putObject codec p Space.addressResources transaction.payer (codec.resources arr)
  putObject codec p Space.accountNonce accountNonceKey []
  pure rcUsed

/-- The comparison is made on `uint64_t`. -/
def cleanupAccountResourcesOnNode (record : PendingTransactionRecord) : NodeM Unit := do
  let transaction := record.transaction
  let obj ← getObject codec p Space.addressResources transaction.payer
  let arr ← convert (codec.parseResources (← dereference obj))
  if arr.maxRc ≤ arr.currentRc + transaction.rcLimit then
    removeObject codec p Space.addressResources transaction.payer
  else
    putObject codec p Space.addressResources transaction.payer
      (codec.resources { arr with currentRc := arr.currentRc + transaction.rcLimit })

/-- The removals that `remove_pending_transactions_on_node` and `prune` share. -/
def dropRecord (seq id : Bytes) (record : PendingTransactionRecord) : NodeM Unit := do
  cleanupAccountResourcesOnNode codec p record
  removeObject codec p Space.pendingTransaction seq
  removeObject codec p Space.transactionIndex id
  let accountNonceKey ← convert (createAccountNonceKey codec record.transaction)
  removeObject codec p Space.accountNonce accountNonceKey

/-- The result counts the removed transactions. -/
def removePendingTransactionsOnNode : List Bytes → NodeM ℕ
  | [] => pure 0
  | id :: ids => do
    match ← getObject codec p Space.transactionIndex id with
    | none => removePendingTransactionsOnNode ids
    | some seq =>
      let obj ← getObject codec p Space.pendingTransaction seq
      let record ← convert (codec.parseRecord (← dereference obj))
      dropRecord codec p seq id record
      let count ← removePendingTransactionsOnNode ids
      pure (count + 1)

/-- Nanoseconds since the epoch; the conversion to milliseconds is signed. -/
def PendingTransactionRecord.time (record : PendingTransactionRecord) : ℤ :=
  record.timestamp.toInt64.toInt * 1000000

/-- The loop of `prune` on one node, with the expiration in seconds and the time in nanoseconds. -/
def pruneOnNode (expiration now : ℤ) : ℕ → NodeM ℕ
  | 0 => throw .outOfFuel
  | fuel + 1 => do
    match ← getNextObject codec p Space.pendingTransaction [] with
    | none => pure 0
    | some (obj, key) =>
      let record ← convert (codec.parseRecord obj)
      if now < record.time + expiration * 1000000000 then pure 0 else
      dropRecord codec p key record.transaction.id record
      let count ← pruneOnNode expiration now fuel
      pure (count + 1)

end OnNode

end Teleno.Mempool
