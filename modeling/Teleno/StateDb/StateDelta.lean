import Teleno.Library.LinkedStore
import Teleno.Library.MapFold
import Teleno.StateDb.Backend

/-! # State deltas on a heap of parent-linked nodes

Each delta holds its own writes and the tombstones of removed keys, and answers every other key
through its parent. Deltas are shared by pointer, so they live in a `LinkedStore`: the parent of a
delta is allocated before it. The root delta has no parent; its backend is the database proper.
While a commit runs, the backend is taken out of the old root and handed to the committed delta.
-/

namespace Teleno.StateDb

open Library

/-- `state_delta`. A null backend only occurs on the old root of a commit. -/
structure StateDelta where
  parent : Option ℕ := none
  backend : Option Backend := none
  removedObjects : KeySet := ∅
  id : Multihash := []
  revision : ℕ := 0
  merkleRootCache : Option Multihash := none
  finalized : Bool := false
deriving Inhabited

/-- All deltas, live or not, by address. -/
abbrev Heap := LinkedStore StateDelta StateDelta.parent

namespace StateDelta

def isRoot (d : StateDelta) : Bool := d.parent.isNone

def isRemoved (d : StateDelta) (key : Bytes) : Bool := d.removedObjects.contains key

def objects (d : StateDelta) : ObjectMap := (d.backend.map Backend.objects).getD ∅

def get (d : StateDelta) (key : Bytes) : Option Bytes := d.objects[key]?

def blockHeader (d : StateDelta) : BlockHeader := (d.backend.map Backend.header).getD {}

def put (d : StateDelta) (key value : Bytes) : StateDelta :=
  { d with backend := d.backend.map (·.put key value) }

/-- The effect of `erase` once it has decided to record the removal. -/
def remove (d : StateDelta) (key : Bytes) : StateDelta :=
  { d with
    backend := d.backend.map (·.erase key)
    removedObjects := d.removedObjects.insert key }

/-- Fold a child's removals, then its writes, into its parent. A root keeps no tombstones. -/
def absorb (d child : StateDelta) : StateDelta :=
  let removed := child.removedObjects.toList.foldl (fun d key =>
    { d with
      backend := d.backend.map (·.erase key)
      removedObjects := if d.isRoot then d.removedObjects else d.removedObjects.insert key }) d
  child.objects.toList.foldl (fun d entry =>
    { d with
      backend := d.backend.map (·.put entry.1 entry.2)
      removedObjects := if d.isRoot then d.removedObjects else d.removedObjects.erase entry.1 }) removed

/-- Replay this delta into a backend: tombstones first, then the delta's own objects. -/
def writeTo (d : StateDelta) (backend : Backend) : Backend :=
  let erased := d.removedObjects.toList.foldl (fun b key => b.erase key) backend
  d.objects.toList.foldl (fun b entry => b.put entry.1 entry.2) erased

/-- Changes of the backend that a node with a parent also keeps track of, one after the other. -/
private theorem foldl_changes {α : Type} (change : α → Backend → Backend) (track : α → KeySet → KeySet) (items : List α)
    (d : StateDelta) :
    items.foldl (fun d item =>
      { d with
        backend := d.backend.map (change item)
        removedObjects := if d.isRoot then d.removedObjects else track item d.removedObjects }) d =
      { d with
        backend := d.backend.map fun b => items.foldl (fun b item => change item b) b
        removedObjects := if d.isRoot then d.removedObjects else
          items.foldl (fun removed item => track item removed) d.removedObjects } := by
  induction items generalizing d with
  | nil => simp
  | cons item rest ih =>
    rw [List.foldl_cons, ih]
    cases up : d.parent <;> simp [isRoot, up, Function.comp_def]

/-- Absorbing a child replays it into the backend and rearranges the tombstones. -/
theorem absorb_eq (d child : StateDelta) : d.absorb child = { d with
      backend := d.backend.map child.writeTo
      removedObjects := if d.isRoot then d.removedObjects else
        child.objects.toList.foldl (fun removed entry => removed.erase entry.1)
          (child.removedObjects.toList.foldl (fun removed key => removed.insert key)
            d.removedObjects) } := by
  rw [absorb, foldl_changes (fun key b => b.erase key) fun key removed => removed.insert key,
    foldl_changes (fun entry b => b.put entry.1 entry.2) fun (entry : Bytes × Bytes) removed => removed.erase entry.1]
  have replay : child.writeTo = fun b => child.objects.toList.foldl (fun b entry => b.put entry.1 entry.2)
      (child.removedObjects.toList.foldl (fun b key => b.erase key) b) := rfl
  cases up : d.parent <;> simp [isRoot, up, Function.comp_def, replay]

theorem absorb_parent (d child : StateDelta) : (d.absorb child).parent = d.parent := by
  rw [absorb_eq]

/-- The live keys and the tombstones, sorted. A key that is both occurs twice. -/
def objectKeys (d : StateDelta) : List Bytes :=
  sortKeys (d.objects.keys ++ d.removedObjects.toList)

/-- Each key contributes its hash and the hash of its value, the empty string when removed. -/
def merkleLeafs (crypto : Crypto) (d : StateDelta) : List Multihash :=
  d.objectKeys.flatMap fun key => [crypto.hash key, crypto.hash ((d.get key).getD [])]

def calculateMerkleRoot (crypto : Crypto) (d : StateDelta) : Multihash :=
  crypto.merkleRoot (d.merkleLeafs crypto)

/-- The cached root if there is one. -/
def merkleRoot (crypto : Crypto) (d : StateDelta) : Multihash :=
  d.merkleRootCache.getD (d.calculateMerkleRoot crypto)

def getDeltaEntries (codec : KeyCodec) (d : StateDelta) : List StateDeltaEntry :=
  d.objectKeys.filterMap fun key =>
    (codec.parse key).map fun dbKey => ⟨dbKey.space, dbKey.key, d.get key⟩

/-- A fresh child delta over an empty `map_backend`. -/
def makeChild (d : StateDelta) (address : ℕ) (id : Multihash) (header : BlockHeader) : StateDelta where
  parent := some address
  backend := some { header := header }
  id := id
  revision := d.revision + 1

/-- A sibling with the same contents under a new id and header. -/
def clone (d : StateDelta) (id : Multihash) (header : BlockHeader) : StateDelta :=
  { d with
    id := id
    backend := d.backend.map fun b =>
      { b with
        id := id
        revision := d.revision
        header := header
        merkleRoot := d.merkleRootCache.getD b.merkleRoot } }

end StateDelta

/-- Search a delta, its parent, and so on. The first delta that holds or has removed the key
decides. -/
def findIn : List StateDelta → Bytes → Option Bytes
  | [], _ => none
  | d :: parents, key =>
    match d.get key with
    | some value => some value
    | none => if d.isRemoved key then none else findIn parents key

namespace Heap

/-- The heap before anything is allocated. -/
def empty : Heap where
  size := 0
  cell _ := {}
  descending := by intro i j linked; contradiction

def find (h : Heap) (p : ℕ) (key : Bytes) : Option Bytes := findIn (h.lineage p) key

def put (h : Heap) (p : ℕ) (key value : Bytes) : Heap :=
  h.modify p (·.put key value) (fun _ => .inl rfl)

/-- Removing an absent key is a no-op unless the tombstone is to be preserved. -/
def erase (h : Heap) (p : ℕ) (key : Bytes) (preserveTombstone : Bool) : Heap :=
  if (h.find p key).isSome || preserveTombstone then h.modify p (·.remove key) (fun _ => .inl rfl)
  else h

/-- Merge an anonymous delta into its parent; a root is left alone. -/
def squash (h : Heap) (p : ℕ) : Heap :=
  match (h.cell p).parent with
  | none => h
  | some q => h.modify q (·.absorb (h.cell p)) (fun d => .inl (d.absorb_parent _))

/-- Write the chain from the root's child down to `p` into the root's backend and make `p` the new
root. `accepted` is RocksDB's answer to the write batch. -/
def commit (crypto : Crypto) (h : Heap) (p : ℕ) (accepted : Bool) : Except StateDbError Unit × Heap :=
  if (h.cell p).isRoot then (.error .internalError, h) else
  let nodeStack := h.path p
  let root := h.top p
  match (h.cell root).backend with
  | none => (.error .internalError, h)
  | some backend =>
    let h := h.modify root (fun d => { d with backend := none }) (fun _ => .inl rfl)
    match backend.startWriteBatch with
    | .error e => (.error e, h)
    | .ok backend =>
      let written := (nodeStack.dropLast.reverse).foldl (fun b q => (h.cell q).writeTo b) backend
      let d := h.cell p
      let h := h.modify p (fun d => { d with merkleRootCache := some (d.merkleRoot crypto) })
        (fun _ => .inl rfl)
      let stored := { written with
        header := d.blockHeader
        revision := d.revision
        id := d.id
        merkleRoot := d.merkleRoot crypto }.storeMetadata
      match stored.endWriteBatch accepted with
      | .error e => (.error e, h)
      | .ok backend =>
        (.ok (), h.modify p
          (fun d => { d with removedObjects := ∅, backend := some backend, parent := none })
          (fun _ => .inr rfl))

def makeChild (h : Heap) (p : ℕ) (id : Multihash) (header : BlockHeader) : Heap :=
  h.push ((h.cell p).makeChild p id header)

def clone (h : Heap) (p : ℕ) (id : Multihash) (header : BlockHeader) : Heap :=
  h.push ((h.cell p).clone id header)

def isEmpty (h : Heap) (p : ℕ) : Bool := (h.lineage p).all fun d => d.objects.size == 0

end Heap

end Teleno.StateDb
