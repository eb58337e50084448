import Teleno.StateDb.Comparators
import Teleno.StateDb.StateNode

/-! # The database of state nodes

The database indexes the deltas that are alive and tracks the head, the root and the fork heads.
Every function follows the public operation of the same name; the result says whether it returned
or threw, and the database beside it is what the operation left behind in either case.
-/

namespace Teleno.StateDb

open Library

/-- `std::map< state_node_id, state_delta_ptr >`. -/
abbrev ForkHeads := Std.ExtTreeMap Multihash ℕ compare

theorem ForkHeads.getElem?_insert (forkHeads : ForkHeads) (id id' : Multihash) (p : ℕ) :
    (forkHeads.insert id p)[id']? = if id = id' then some p else forkHeads[id']? := by
  simp [Std.ExtTreeMap.getElem?_insert]

theorem ForkHeads.getElem?_erase (forkHeads : ForkHeads) (id id' : Multihash) :
    (forkHeads.erase id)[id']? = if id = id' then none else forkHeads[id']? := by
  simp [Std.ExtTreeMap.getElem?_erase]

/-- `database_impl`. The index lists addresses in insertion order, which is also the order of the
children of one parent. -/
structure Database where
  heap : Heap
  index : List ℕ
  head : ℕ
  forkHeads : ForkHeads
  root : ℕ

namespace Database

variable (db : Database)

/-- `_index.find`. -/
def getNode (id : Multihash) : Option ℕ := db.index.find? fun p => db.heap.id p == id

/-- The root's parent id is the null multihash, which is no node's id. -/
def parentId (p : ℕ) : Option Multihash := (db.heap.cell p).parent.map db.heap.id

/-- The ids found under one parent id, in index order. -/
def childIds (id : Multihash) : List Multihash :=
  (db.index.filter fun p => db.parentId p == some id).map db.heap.id

/-- A root delta takes its id, revision and state root from the backend it opens. -/
def openDelta (backend : Backend) : StateDelta where
  backend := some backend
  id := backend.id
  revision := backend.revision
  merkleRootCache := some backend.merkleRoot

/-- `open`: genesis objects are only written to an empty database at revision zero. -/
def openLockless (codec : KeyCodec) (backend : Backend) (init : List (DatabaseKey × Bytes)) : Database :=
  let opened := openDelta backend
  let initialized := if opened.revision = 0 ∧ opened.objects.size = 0 then
      init.foldl (fun d entry => d.put (codec.serialize entry.1) entry.2) opened
    else opened
  let root := { initialized with finalized := true }
  { heap := Heap.empty.push root
    index := [0]
    head := 0
    forkHeads := (∅ : ForkHeads).insert root.id 0
    root := 0 }

/-- Without a finalized parent, or with a taken id, no node is created. -/
def createWritableNode (parentId newId : Multihash) (header : BlockHeader) : Option ℕ × Database :=
  match db.getNode parentId with
  | none => (none, db)
  | some parent =>
    if !(db.heap.cell parent).finalized || (db.getNode newId).isSome then (none, db) else
    (some db.heap.size,
      { db with
        heap := db.heap.makeChild parent newId header
        index := db.index ++ [db.heap.size] })

def cloneNode (nodeId newId : Multihash) (header : BlockHeader) :
    Except StateDbError (Option ℕ) × Database :=
  match db.getNode nodeId with
  | none => (.error .illegalArgument, db)
  | some node =>
    if (db.heap.cell node).finalized then (.error .illegalArgument, db)
    else if (db.getNode newId).isSome then (.ok none, db)
    else (.ok (some db.heap.size),
      { db with
        heap := db.heap.clone node newId header
        index := db.index ++ [db.heap.size] })

/-- The fork heads in the order of the map. -/
def forkList : List ℕ := db.forkHeads.toList.map Prod.snd

/-- All nodes, in the order of the container's first index. -/
def getAllNodes : List ℕ :=
  db.index.insertionSort fun p q => (compare (db.heap.id p) (db.heap.id q)).isLE = true

def markFinalized (node : ℕ) : Database :=
  { db with heap := db.heap.modify node (fun d => { d with finalized := true }) (fun _ => .inl rfl) }

/-- Choose the head once a node has been finalized. Falling back to the parent of a head without
one would dereference a null pointer. -/
def updateHead (algo : ForkResolution) (node : ℕ) : Except StateDbError Unit × Database :=
  if db.heap.revision node > db.heap.revision db.head then (.ok (), { db with head := node })
  else if db.heap.revision node = db.heap.revision db.head then
    match db.heap.comparator algo db.forkList db.head node with
    | some newHead => (.ok (), { db with head := newHead })
    | none =>
      match (db.heap.cell db.head).parent with
      | none => (.error .internalError, db)
      | some parent =>
        (.ok (),
          { db with
            head := parent
            forkHeads := (db.forkHeads.erase (db.heap.id db.head)).insert (db.heap.id parent) parent })
  else (.ok (), db)

/-- The finalized node replaces its parent among the fork heads unless that parent is the head. -/
def updateForkHeads (node : ℕ) : Database :=
  if db.parentId node ≠ some (db.heap.id db.head) then
    let forkHeads := (db.parentId node).elim db.forkHeads db.forkHeads.erase
    { db with forkHeads := forkHeads.insert (db.heap.id node) node }
  else db

def finalizeNode (algo : ForkResolution) (nodeId : Multihash) : Except StateDbError Unit × Database :=
  match db.getNode nodeId with
  | none => (.error .illegalArgument, db)
  | some node =>
    match (db.markFinalized node).updateHead algo node with
    | (.error e, db) => (.error e, db)
    | (.ok (), db) => (.ok (), db.updateForkHeads node)

/-- The loop over the remove queue: it stops at the head, and forgets each fork head it passes. -/
def removeLoop (headId : Multihash) (next : Multihash → List Multihash) :
    ℕ → List Multihash → ForkHeads → Except StateDbError (List Multihash) × ForkHeads
  | _, [], forkHeads => (.ok [], forkHeads)
  | 0, _ :: _, forkHeads => (.error .outOfFuel, forkHeads)
  | fuel + 1, id :: queue, forkHeads =>
    if id = headId then (.error .cannotDiscard, forkHeads) else
    let (removed, forkHeads) := removeLoop headId next fuel (queue ++ next id) (forkHeads.erase id)
    (removed.map (id :: ·), forkHeads)

def discardNodeLockless (nodeId : Multihash) (whitelist : List Multihash) :
    Except StateDbError Unit × Database :=
  match db.getNode nodeId with
  | none => (.ok (), db)
  | some node =>
    if nodeId = db.heap.id db.root then (.error .illegalArgument, db) else
    let next id := (db.childIds id).filter (· ∉ whitelist)
    match removeLoop (db.heap.id db.head) next db.index.length [nodeId] db.forkHeads with
    | (.error e, forkHeads) => (.error e, { db with forkHeads })
    | (.ok removed, forkHeads) =>
      let db' := { db with forkHeads, index := db.index.filter fun p => db.heap.id p ∉ removed }
      if db'.index.any fun p => db'.parentId p == db.parentId node then (.ok (), db') else
      match db'.index.find? fun p => some (db.heap.id p) == db.parentId node with
      | none => (.error .internalError, db')
      | some parent => (.ok (), { db' with forkHeads := forkHeads.insert (db.heap.id parent) parent })

def discardNode (nodeId : Multihash) : Except StateDbError Unit × Database :=
  db.discardNodeLockless nodeId []

/-- `accepted` is RocksDB's answer to the write batch. When the commit of the delta throws, the
container's `modify` erases the element. -/
def commitNode (crypto : Crypto) (nodeId : Multihash) (accepted : Bool) :
    Except StateDbError Unit × Database :=
  if nodeId = db.heap.id db.root then (.ok (), db) else
  match db.getNode nodeId with
  | none => (.error .illegalArgument, db)
  | some node =>
    match db.heap.commit crypto node accepted with
    | (.error e, heap) => (.error e, { db with heap, root := node, index := db.index.erase node })
    | (.ok (), heap) =>
      { db with heap, root := node }.discardNodeLockless (db.heap.id db.root) [nodeId]

/-- Any calls on the objects and anonymous children of one node; the first that throws ends them. -/
def transact (codec : KeyCodec) (nodeId : Multihash) (calls : List NodeOp) :
    Except StateDbError Unit × Database :=
  match db.getNode nodeId with
  | none => (.error .illegalArgument, db)
  | some node =>
    let rec run (session : Session) : List NodeOp → Except StateDbError Unit × Heap
      | [] => (.ok (), session.heap)
      | call :: rest =>
        match session.apply codec call with
        | .error e => (.error e, session.heap)
        | .ok session => run session rest
    let (result, heap) := run ⟨db.heap, [⟨none, node⟩]⟩ calls
    (result, { db with heap })

end Database

/-- The public operations. -/
inductive DbOp where
  | createWritableNode (parentId newId : Multihash) (header : BlockHeader)
  | cloneNode (nodeId newId : Multihash) (header : BlockHeader)
  | transact (nodeId : Multihash) (calls : List NodeOp)
  | finalizeNode (nodeId : Multihash)
  | discardNode (nodeId : Multihash)
  | commitNode (nodeId : Multihash) (accepted : Bool)
deriving DecidableEq

namespace Database

def apply (codec : KeyCodec) (crypto : Crypto) (algo : ForkResolution) (db : Database) :
    DbOp → Except StateDbError Unit × Database
  | .createWritableNode parentId newId header =>
    (.ok (), (db.createWritableNode parentId newId header).2)
  | .cloneNode nodeId newId header =>
    let (result, db) := db.cloneNode nodeId newId header
    (result.map fun _ => (), db)
  | .transact nodeId calls => db.transact codec nodeId calls
  | .finalizeNode nodeId => db.finalizeNode algo nodeId
  | .discardNode nodeId => db.discardNode nodeId
  | .commitNode nodeId accepted => db.commitNode crypto nodeId accepted

/-- A node is finalized once, and a commit that throws ends the run. -/
inductive Step (codec : KeyCodec) (crypto : Crypto) (algo : ForkResolution) (db : Database) :
    DbOp → Database → Prop
  | returns {op : DbOp} {db' : Database} (success : db.apply codec crypto algo op = (.ok (), db'))
      (once : ∀ id, op = .finalizeNode id → ∀ p, db.getNode id = some p →
        (db.heap.cell p).finalized = false) : Step codec crypto algo db op db'
  | throws {op : DbOp} {db' : Database} {e : StateDbError}
      (failure : db.apply codec crypto algo op = (.error e, db'))
      (survivable : ∀ id accepted, op ≠ .commitNode id accepted) (once : ∀ id, op ≠ .finalizeNode id) :
      Step codec crypto algo db op db'

variable {codec : KeyCodec} {crypto : Crypto} {algo : ForkResolution} {db db' : Database} {op : DbOp}

theorem Step.ends (moves : Step codec crypto algo db op db') :
    ∃ result, db.apply codec crypto algo op = (result, db') := by
  cases moves with
  | returns ran | throws ran => exact ⟨_, ran⟩

/-- Finalizations and commits return. -/
theorem Step.success (moves : Step codec crypto algo db op db')
    (final : (∃ id, op = .finalizeNode id) ∨ ∃ id accepted, op = .commitNode id accepted) :
    db.apply codec crypto algo op = (.ok (), db') := by
  cases moves with
  | returns success => exact success
  | throws _ survivable once =>
    rcases final with ⟨id, rfl⟩ | ⟨id, accepted, rfl⟩
    · exact absurd rfl (once id)
    · exact absurd rfl (survivable id accepted)

end Database

/-- All runs from an opened database. -/
def databaseMachine (codec : KeyCodec) (crypto : Crypto) (algo : ForkResolution) :
    Machine Database DbOp where
  init db := ∃ backend : Backend, ∃ init, backend.Synced ∧ db = .openLockless codec backend init
  step db op db' := Database.Step codec crypto algo db op db'

namespace Database

def finalizesAgain (db : Database) : DbOp → Bool
  | .finalizeNode id => (db.getNode id).any fun p => (db.heap.cell p).finalized
  | _ => false

/-- Operations one after the other, as long as each returns and no node is finalized twice. -/
def run (codec : KeyCodec) (crypto : Crypto) (algo : ForkResolution) : Database → List DbOp → Option Database
  | db, [] => some db
  | db, op :: rest =>
    match db.apply codec crypto algo op with
    | (.error _, _) => none
    | (.ok (), db') => if db.finalizesAgain op then none else run codec crypto algo db' rest

variable {codec : KeyCodec} {crypto : Crypto} {algo : ForkResolution}

/-- An operation that returns takes a run one state further. -/
theorem reachable_apply {guard : Database → DbOp → Prop} {db : Database} {op : DbOp}
    (reached : (databaseMachine codec crypto algo).Reachable guard db) (admitted : guard db op)
    (success : (db.apply codec crypto algo op).1 = .ok ()) (fresh : db.finalizesAgain op = false) :
    (databaseMachine codec crypto algo).Reachable guard (db.apply codec crypto algo op).2 := by
  refine .next reached admitted (.returns (Prod.ext success rfl) ?_)
  rintro id rfl p found
  simpa only [finalizesAgain, found, Option.any_some] using fresh

/-- Every operation of a run passes a check where it is applied. -/
def admits (codec : KeyCodec) (crypto : Crypto) (algo : ForkResolution) (check : Database → DbOp → Bool) :
    Database → List DbOp → Bool
  | _, [] => true
  | db, op :: rest => check db op && admits codec crypto algo check (db.apply codec crypto algo op).2 rest

theorem reachable_of_admitted_run {guard : Database → DbOp → Prop} {check : Database → DbOp → Bool}
    (sound : ∀ db op, check db op = true → guard db op) {ops : List DbOp} {db db' : Database}
    (reached : (databaseMachine codec crypto algo).Reachable guard db)
    (admitted : db.admits codec crypto algo check ops = true) (ran : db.run codec crypto algo ops = some db') :
    (databaseMachine codec crypto algo).Reachable guard db' := by
  induction ops generalizing db with
  | nil =>
    cases ran
    exact reached
  | cons op rest ih =>
    rw [admits, Bool.and_eq_true] at admitted
    rw [run] at ran
    cases result : db.apply codec crypto algo op with
    | mk outcome next =>
      rw [result] at ran
      cases outcome with
      | error e => cases ran
      | ok =>
        dsimp only at ran
        split at ran
        · contradiction
        · rename_i fresh
          have moved := reachable_apply reached (sound db op admitted.1) (congrArg Prod.fst result)
            (Bool.not_eq_true _ ▸ fresh)
          rw [result] at moved admitted
          exact ih moved admitted.2 ran

theorem reachable_of_run {ops : List DbOp} {db db' : Database}
    (reached : (databaseMachine codec crypto algo).Reachable (fun _ _ => True) db)
    (ran : db.run codec crypto algo ops = some db') :
    (databaseMachine codec crypto algo).Reachable (fun _ _ => True) db' := by
  have admitted (db : Database) : db.admits codec crypto algo (fun _ _ => true) ops = true := by
    clear ran
    induction ops generalizing db with
    | nil => rfl
    | cons op rest ih => exact ih _
  exact reachable_of_admitted_run (fun _ _ _ => trivial) reached (admitted db) ran

end Database

end Teleno.StateDb
