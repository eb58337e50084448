import Teleno.Chain.Messages
import Teleno.Library.Machine
import Teleno.Mempool.Node
import Teleno.StateDb.Removal

/-! # The mempool

The mempool keeps a database of its own. Every block it has seen is a finalized node with an
unfinalized child, its pending node, where the transactions that are pending after that block are
kept. Pending transactions are added on all forks at once, through anonymous nodes; they are removed
on the pending nodes of the fork heads. The functions follow the members of `mempool_impl`.
-/

namespace Teleno.Mempool

open Library StateDb

/-- `mempool_impl`; of the mutexes only the ids matter under which they are found. -/
structure MempoolImpl where
  db : Database
  mutexes : KeySet

/-- Calls on the mempool. -/
abbrev MempoolM := EStateM MempoolError MempoolImpl

/-- The id of the pending node of a block. -/
def tmpId (crypto : Crypto) (id : Multihash) : Multihash := crypto.hash id

def MempoolImpl.withHeap (m : MempoolImpl) (heap : Heap) : MempoolImpl := { m with db := { m.db with heap } }

/-- Work on the nodes of the database. -/
def onNodes {α : Type} (program : NodeM α) : MempoolM α :=
  Exec.focus (fun m => m.db.heap) (fun heap m => m.withHeap heap) program

/-- A call of the database. -/
def onDatabase {α : Type} (call : Database → Except StateDbError α × Database) : MempoolM α := fun m =>
  match call m.db with
  | (.ok a, db) => .ok a { m with db }
  | (.error e, db) => .error (.stateDb e) { m with db }

/-- A call that cannot fail. -/
def updateDatabase {α : Type} (call : Database → α × Database) : MempoolM α := fun m =>
  .ok (call m.db).1 { m with db := (call m.db).2 }

section Calls

variable {α : Type} {m : MempoolImpl}

variable {program : NodeM α}

theorem onNodes_of_ok {a : α} {heap : Heap} (ok : program m.db.heap = .ok a heap) :
    onNodes program m = .ok a (m.withHeap heap) := by
  simp [onNodes, Exec.within, ok]

theorem onNodes_of_error {e : MempoolError} {heap : Heap}
    (err : program m.db.heap = .error e heap) : onNodes program m = .error e (m.withHeap heap) := by
  simp [onNodes, Exec.within, err]

theorem onNodes_eq_error {e : MempoolError} {m' : MempoolImpl}
    (err : onNodes program m = .error e m') : ∃ heap, program m.db.heap = .error e heap := by
  cases outcome : program m.db.heap with
  | ok a heap =>
    rw [onNodes_of_ok outcome] at err
    cases err
  | error e' heap =>
    rw [onNodes_of_error outcome] at err
    cases err
    exact ⟨heap, rfl⟩

theorem final_onNodes (program : NodeM α) (m : MempoolImpl) :
    Exec.final (onNodes program m) = m.withHeap (Exec.final (program m.db.heap)) := by
  rw [onNodes, Exec.final_within]

theorem onDatabase_eq (call : Database → Except StateDbError α × Database) (m : MempoolImpl) :
    (∃ a db, call m.db = (.ok a, db) ∧ onDatabase call m = .ok a { m with db }) ∨
      ∃ e db, call m.db = (.error e, db) ∧ onDatabase call m = .error (.stateDb e) { m with db } := by
  rw [onDatabase]
  cases ran : call m.db with
  | mk result db =>
    cases result with
    | ok a => exact .inl ⟨a, db, rfl, rfl⟩
    | error e => exact .inr ⟨e, db, rfl, rfl⟩

end Calls

section Operations

variable (codec : Codec) (crypto : Crypto) (algo : ForkResolution)

/-- The constructor: an empty database whose root has a pending node. -/
def MempoolImpl.create : MempoolImpl :=
  let db := Database.openLockless codec.keys {} []
  let nodeId := db.heap.id db.head
  let relevantId := tmpId crypto nodeId
  { db := (db.createWritableNode nodeId relevantId {}).2, mutexes := (∅ : KeySet).insert relevantId }

/-- The pending node of a block, by default of the head. -/
def relevantNode (id : Option Multihash) : MempoolM (Option ℕ) := do
  let m ← get
  match id.elim (some m.db.head) m.db.getNode with
  | none => pure none
  | some node =>
    let relevantId := tmpId crypto (m.db.heap.id node)
    Exec.require (m.mutexes.contains relevantId) .missingMutex
    pure (m.db.getNode relevantId)

def hasPendingTransaction (id : Bytes) (blockId : Option Multihash) : MempoolM Bool := do
  match ← relevantNode crypto blockId with
  | none => pure false
  | some node =>
    let obj ← onNodes (getObject codec node Space.transactionIndex id)
    pure obj.isSome

/-- What became of a transaction on one node. -/
structure Attempt where
  node : ℕ
  anonymous : ℕ
  rcUsed : Option UInt64

def createAnonymousNode (p : ℕ) : NodeM ℕ := fun h => .ok h.size (h.makeChild p [] {})

/-- A nonce conflict leaves the anonymous node empty; anything else ends the loop. The head's pending
node is looked at when a transaction has been added. -/
def addOnNode (record : PendingTransactionRecord) (maxPayerRc : UInt64) (tmpHead : Option ℕ) (node : ℕ) :
    NodeM Attempt := do
  let anonymous ← createAnonymousNode node
  tryCatch (do
      let rcUsed ← addPendingTransactionToNode codec anonymous record maxPayerRc
      let _ ← dereference tmpHead
      pure ⟨node, anonymous, some rcUsed⟩)
    fun e => if e.isNonceConflict then pure ⟨node, anonymous, none⟩ else throw e

def addOnNodes (record : PendingTransactionRecord) (maxPayerRc : UInt64) (tmpHead : Option ℕ) :
    List ℕ → NodeM (List Attempt)
  | [] => pure []
  | node :: nodes => do
    let attempt ← addOnNode codec record maxPayerRc tmpHead node
    let attempts ← addOnNodes record maxPayerRc tmpHead nodes
    pure (attempt :: attempts)

/-- `anonymous_state_node::commit`. -/
def commitAnonymousNode (attempt : Attempt) : NodeM Unit := fun h =>
  if (h.cell attempt.node).finalized then .error (.stateDb .nodeFinalized) h
  else .ok () ((h.squash attempt.anonymous).makeChild attempt.anonymous [] {})

def commitAttempts : List Attempt → MempoolM Unit
  | [] => pure ()
  | attempt :: attempts => do
    let m ← get
    Exec.require (m.mutexes.contains (m.db.heap.id attempt.node)) .missingMutex
    onNodes (commitAnonymousNode attempt)
    commitAttempts attempts

/-- The nodes that are not finalized. -/
def pendingNodes (db : Database) : List ℕ := db.getAllNodes.filter fun p => !(db.heap.cell p).finalized

/-- The time counts nanoseconds since the epoch. The result is the RC used on the head. -/
def addPendingTransaction (transaction : PendingTransaction) (time : ℤ) (maxPayerRc : UInt64) :
    MempoolM UInt64 := do
  let m ← get
  let tmpHead ← relevantNode crypto (some (m.db.heap.id m.db.head))
  let record : PendingTransactionRecord := ⟨transaction, UInt64.ofInt (time.tdiv 1000000)⟩
  let attempts ← onNodes (addOnNodes codec record maxPayerRc tmpHead (pendingNodes m.db))
  Exec.require (attempts.any fun attempt => attempt.rcUsed.isSome) (.nonceConflict none)
  commitAttempts attempts
  let onHead := attempts.find? fun attempt => some attempt.node == tmpHead
  pure ((onHead.bind Attempt.rcUsed).getD 0)

/-- Visit the pending nodes of some blocks; the result is what the visit returns at the head. -/
def onForks (visit : ℕ → NodeM ℕ) : List ℕ → MempoolM ℕ
  | [] => pure 0
  | block :: blocks => do
    let m ← get
    let node ← dereference (← relevantNode crypto (some (m.db.heap.id block)))
    let count ← onNodes (visit node)
    let later ← onForks visit blocks
    pure (if m.db.heap.id block = m.db.heap.id m.db.head then count else later)

def removePendingTransactions (ids : List Bytes) : MempoolM ℕ := do
  let m ← get
  onForks crypto (fun node => removePendingTransactionsOnNode codec node ids) m.db.forkList

/-- Every round of the loop removes an object that the node shows. -/
def prune (expiration now : ℤ) : MempoolM ℕ := do
  let m ← get
  onForks crypto (fun node h => pruneOnNode codec node expiration now ((h.visibleKeys node).length + 1) h)
    m.db.forkList

/-- The pending node that a block builds on. While the root is the head, blocks build on the root. -/
def MempoolImpl.basisId (m : MempoolImpl) (block : Chain.Block) : Multihash :=
  let rootId := m.db.heap.id m.db.root
  tmpId crypto (if rootId ≠ m.db.heap.id m.db.head then block.header.previous else rootId)

/-- The guarded part of `handle_block`: the block becomes a copy of the pending node it builds on,
without its own transactions. -/
def cloneBlock (block : Chain.Block) : MempoolM Bool := do
  let m ← get
  match m.db.getNode (m.basisId crypto block) with
  | none => pure false
  | some _ =>
    let node ← onDatabase (·.cloneNode (m.basisId crypto block) block.id block.header)
    match block.transactions.map Chain.Transaction.id with
    | [] => pure true
    | id :: ids =>
      let node ← dereference node
      let _ ← onNodes (removePendingTransactionsOnNode codec node (id :: ids))
      pure true

/-- A finalization that would follow the parent of a root ends the process. -/
def finalizeBlock (id : Multihash) : MempoolM Unit :=
  tryCatch (onDatabase (·.finalizeNode algo id)) fun e =>
    throw (if e = .stateDb .internalError then .nullNode else e)

def handleBlock (block : Chain.Block) : MempoolM Bool := do
  let cloned ← tryCatch (cloneBlock codec crypto block) fun e => do
    if e = .nullNode then throw e
    onDatabase (·.discardNode block.id)
    throw e
  if cloned then
    finalizeBlock algo block.id
    let relevantId := tmpId crypto block.id
    let _ ← updateDatabase (·.createWritableNode block.id relevantId {})
    modify fun m => { m with mutexes := m.mutexes.insert relevantId }
  pure cloned

def handleIrreversibility (id : Multihash) : MempoolM Unit := do
  let m ← get
  if (m.db.getNode id).isSome then
    onDatabase (·.commitNode crypto id true)
    modify fun m => { m with mutexes := m.mutexes.filter fun id => (m.db.getNode id).isSome }

end Operations

/-- The calls that change the mempool. -/
inductive MempoolOp where
  | addPendingTransaction (transaction : PendingTransaction) (time : ℤ) (maxPayerRc : UInt64)
  | removePendingTransactions (ids : List Bytes)
  | prune (expiration now : ℤ)
  | handleBlock (block : Chain.Block)
  | handleIrreversibility (id : Multihash)

/-- One call, for its effect. -/
def apply (codec : Codec) (crypto : Crypto) (algo : ForkResolution) : MempoolOp → MempoolM Unit
  | .addPendingTransaction transaction time maxPayerRc =>
    Exec.ignore (addPendingTransaction codec crypto transaction time maxPayerRc)
  | .removePendingTransactions ids => Exec.ignore (removePendingTransactions codec crypto ids)
  | .prune expiration now => Exec.ignore (prune codec crypto expiration now)
  | .handleBlock block => Exec.ignore (handleBlock codec crypto algo block)
  | .handleIrreversibility id => handleIrreversibility crypto id

/-- Transactions pass `validate_transaction` before they are added. -/
def MempoolOp.Valid : MempoolOp → Prop
  | .addPendingTransaction transaction _ _ => 0 < transaction.rcLimit
  | _ => True

instance (op : MempoolOp) : Decidable op.Valid := by
  cases op <;> unfold MempoolOp.Valid <;> infer_instance

/-- All runs of a new mempool. A call may throw, but none may crash. -/
def mempoolMachine (codec : Codec) (crypto : Crypto) (algo : ForkResolution) :
    Machine MempoolImpl MempoolOp where
  init m := m = .create codec crypto
  step m op m' := Exec.final (apply codec crypto algo op m) = m' ∧
    ¬ Exec.Throws (· = .nullNode) (apply codec crypto algo op) m

/-- Calls one after the other, as long as each passes a check and none crashes. -/
def run (codec : Codec) (crypto : Crypto) (algo : ForkResolution) (check : MempoolImpl → MempoolOp → Bool) :
    MempoolImpl → List MempoolOp → Option MempoolImpl
  | m, [] => some m
  | m, op :: rest =>
    if check m op ∧ ¬ Exec.Throws (· = .nullNode) (apply codec crypto algo op) m then
      run codec crypto algo check (Exec.final (apply codec crypto algo op m)) rest
    else none

theorem reachable_of_run {codec : Codec} {crypto : Crypto} {algo : ForkResolution}
    {guard : MempoolImpl → MempoolOp → Prop} {check : MempoolImpl → MempoolOp → Bool}
    (sound : ∀ m op, check m op = true → guard m op) {ops : List MempoolOp} {m m' : MempoolImpl}
    (reached : (mempoolMachine codec crypto algo).Reachable guard m)
    (ran : run codec crypto algo check m ops = some m') : (mempoolMachine codec crypto algo).Reachable guard m' := by
  induction ops generalizing m with
  | nil =>
    cases ran
    exact reached
  | cons op rest ih =>
    rw [run] at ran
    split at ran
    · rename_i passed
      exact ih (.next reached (sound m op passed.1) ⟨rfl, passed.2⟩) ran
    · contradiction

theorem exists_run {codec : Codec} {crypto : Crypto} {algo : ForkResolution} {guard : MempoolImpl → MempoolOp → Prop}
    {check : MempoolImpl → MempoolOp → Bool} (sound : ∀ m op, check m op = true → guard m op) (ops : List MempoolOp)
    {holds : MempoolImpl → Prop} [DecidablePred holds]
    (ends : (run codec crypto algo check (.create codec crypto) ops).any (fun m => decide (holds m)) = true) :
    ∃ m, (mempoolMachine codec crypto algo).Reachable guard m ∧ holds m := by
  obtain ⟨m, ran, held⟩ := exists_of_any ends
  exact ⟨m, reachable_of_run sound (.start rfl) ran, held⟩

/-- Hashes that can be told from block ids. -/
def marked : Crypto := { Crypto.transparent with hash := fun bytes => 0 :: bytes }

end Teleno.Mempool
