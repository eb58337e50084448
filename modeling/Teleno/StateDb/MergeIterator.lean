import Mathlib.Algebra.Ring.Nat
import Teleno.Library.Cursor
import Teleno.StateDb.View

/-! # The merged iteration over the deltas of a node

`merge_iterator` keeps one cursor for each delta between a node and the root, in a container that is
sorted by the keys the cursors stand at. The first cursor of that order is the position of the iterator.
Entries that a later delta has written or removed are dirty and are stepped over. The deltas are listed
from the head to the root.
-/

namespace Teleno.StateDb

open Library

/-- What the iterators throw. `outOfFuel` marks a loop that does not end. -/
inductive MergeError where
  /-- `iterator operation is invalid` -/
  | iteratorException
  /-- `koinos::exception` without a message: the merge iterator is at its end. -/
  | exception
  /-- A key that does not parse. -/
  | malformed
  | outOfFuel
deriving DecidableEq

def StateDelta.isModified (d : StateDelta) (key : Bytes) : Bool := (d.get key).isSome || d.isRemoved key

/-- The entries of a delta's backend in the order of its iterators. -/
def StateDelta.entries (d : StateDelta) : List (Bytes × Bytes) := d.objects.toList

/-- `iterator_wrapper`. -/
structure IteratorWrapper where
  itr : Cursor Bytes Bytes
  revision : ℕ

namespace IteratorWrapper

def valid (w : IteratorWrapper) : Bool := w.itr.valid

def entry (w : IteratorWrapper) : Except MergeError (Bytes × Bytes) :=
  w.itr.rest.head?.elim (throw .iteratorException) pure

/-- What the two orders of the container have in common: invalid iterators come last, and among them the
later revision comes first. -/
def compareValid (less : Bytes → Bytes → Bool) (lhs rhs : IteratorWrapper) : Bool :=
  match lhs.itr.rest, rhs.itr.rest with
  | [], [] => lhs.revision > rhs.revision
  | [], _ :: _ => false
  | _ :: _, [] => true
  | left :: _, right :: _ => less left.1 right.1

def iteratorCompareLess : IteratorWrapper → IteratorWrapper → Bool := compareValid fun left right => left < right

def iteratorCompareGreater : IteratorWrapper → IteratorWrapper → Bool :=
  compareValid fun left right => right < left

/-- `composite_key_compare`: the later revision breaks ties. -/
def precedes (compare : IteratorWrapper → IteratorWrapper → Bool) (lhs rhs : IteratorWrapper) : Bool :=
  compare lhs rhs || (!compare rhs lhs && lhs.revision > rhs.revision)

/-- The first element of an ordered index. -/
def leading (compare : IteratorWrapper → IteratorWrapper → Bool) :
    List IteratorWrapper → Option IteratorWrapper
  | [] => none
  | w :: ws =>
    match leading compare ws with
    | none => some w
    | some m => if precedes compare m w then some m else some w

end IteratorWrapper

open IteratorWrapper

/-- `merge_iterator`: the wrappers of the multi-index container, and the deltas. -/
structure MergeIterator where
  index : List IteratorWrapper
  deltas : List StateDelta

namespace MergeIterator

/-- A delta after the given revision has written or removed the key. -/
def isDirty (deltas : List StateDelta) (revision : ℕ) (key : Bytes) : Bool :=
  (deltas.takeWhile fun d => revision < d.revision).any fun d => d.isModified key

/-- `modify` with an increment. -/
def advance (index : List IteratorWrapper) (w : IteratorWrapper) : List IteratorWrapper :=
  index.map fun other =>
    if other.revision = w.revision then { other with itr := other.itr.next.getD other.itr } else other

/-- The entries that are still ahead of the cursors. -/
def remaining (index : List IteratorWrapper) : ℕ := (index.map fun w => w.itr.rest.length).sum

/-- The first wrapper, if it stands at a dirty entry. -/
def dirtyFirst (deltas : List StateDelta) (index : List IteratorWrapper) : Option IteratorWrapper :=
  (leading iteratorCompareLess index).filter fun w => w.itr.rest.head?.any fun entry =>
    isDirty deltas w.revision entry.1

def resolveConflicts (deltas : List StateDelta) :
    ℕ → List IteratorWrapper → Except MergeError (List IteratorWrapper)
  | 0, index => if (dirtyFirst deltas index).isNone then pure index else throw .outOfFuel
  | fuel + 1, index =>
    match dirtyFirst deltas index with
    | none => pure index
    | some w => resolveConflicts deltas fuel (advance index w)

/-- The container takes no second wrapper with the same revision. -/
def emplace (index : List IteratorWrapper) (w : IteratorWrapper) : List IteratorWrapper :=
  if index.any fun other => other.revision = w.revision then index else index ++ [w]

/-- The constructor. -/
def create (deltas : List StateDelta) (init : StateDelta → Cursor Bytes Bytes) :
    Except MergeError MergeIterator := do
  let index := deltas.foldl (fun index d => emplace index ⟨init d, d.revision⟩) []
  let index ← resolveConflicts deltas (remaining index) index
  pure { index, deltas }

def start (deltas : List StateDelta) : Except MergeError MergeIterator :=
  create deltas fun d => .first d.entries

def finish (deltas : List StateDelta) : Except MergeError MergeIterator :=
  create deltas fun d => .last d.entries

def lowerBound (deltas : List StateDelta) (key : Bytes) : Except MergeError MergeIterator :=
  create deltas fun d => .lowerBound (fun other => other < key) d.entries

variable (it : MergeIterator)

def isEnd : Bool := it.index.all fun w => !w.valid

/-- `operator==`. -/
def equal (other : MergeIterator) : Bool :=
  match leading iteratorCompareLess it.index, leading iteratorCompareLess other.index with
  | none, none => true
  | none, some _ => other.isEnd
  | some _, none => it.isEnd
  | some mine, some theirs =>
    match mine.itr.rest, theirs.itr.rest with
    | [], [] => true
    | [], _ :: _ => false
    | _ :: _, [] => false
    | entry :: _, entry' :: _ => mine.revision = theirs.revision && entry.1 = entry'.1

/-- `operator++`. -/
def increment : Except MergeError MergeIterator :=
  match (leading iteratorCompareLess it.index).filter IteratorWrapper.valid with
  | none => throw .exception
  | some w => do
    let index ← resolveConflicts it.deltas (remaining it.index) (advance it.index w)
    pure { it with index }

/-- The decrement of a backend iterator. -/
def retreat (itr : Cursor Bytes Bytes) : Except MergeError (Cursor Bytes Bytes) :=
  itr.prev.elim (throw .iteratorException) pure

/-- The initial decrement of a cursor at the end. -/
def leaveEnd (itr : Cursor Bytes Bytes) : Except MergeError (Cursor Bytes Bytes) :=
  if itr.valid then pure itr else retreat itr

/-- Decrement while the key is not below the head key. -/
def backBelow (head : Bytes) (itr : Cursor Bytes Bytes) : Except MergeError (Cursor Bytes Bytes) :=
  match itr.rest with
  | [] => throw .iteratorException
  | here :: rest => pure (.backWhile (fun key => !decide (key < head)) itr.done (here :: rest))

/-- The decrements that bring a cursor below the head key, if there is one. -/
def rewindBelow (headKey : Option Bytes) (itr : Cursor Bytes Bytes) : Except MergeError (Cursor Bytes Bytes) :=
  match headKey with
  | none => retreat itr
  | some head => leaveEnd itr >>= backBelow head

/-- One round of the loop over the wrappers in `operator--`. A backend without objects is passed over. -/
def rewind (deltas : List StateDelta) (headKey : Option Bytes) (w : IteratorWrapper) :
    Except MergeError IteratorWrapper :=
  if w.itr.entries.length = 0 then pure w
  else do
    let itr ← rewindBelow headKey w.itr
    pure { w with itr := .backWhile (isDirty deltas w.revision) itr.done itr.rest }

def rewindAll (deltas : List StateDelta) (headKey : Option Bytes) :
    List IteratorWrapper → Except MergeError (List IteratorWrapper)
  | [] => pure []
  | w :: ws => do
    let w ← rewind deltas headKey w
    let ws ← rewindAll deltas headKey ws
    pure (w :: ws)

/-- Entries that are dirty or not below the head key are passed over on the way to the new position. -/
def isPassed (deltas : List StateDelta) (headKey : Option Bytes) (w : IteratorWrapper) : Bool :=
  w.itr.rest.head?.any fun entry =>
    isDirty deltas w.revision entry.1 || headKey.any fun head => !decide (entry.1 < head)

/-- The walk along the reverse order that stops at the first wrapper that is not passed over. -/
def leastItr (deltas : List StateDelta) (headKey : Option Bytes) (index : List IteratorWrapper) :
    Option IteratorWrapper :=
  leading iteratorCompareGreater (index.filter fun w => !isPassed deltas headKey w)

/-- The first wrapper, if its key is below the bound. Asking an invalid iterator for its key throws. -/
def behind (leastKey : Bytes) (index : List IteratorWrapper) : Except MergeError (Option IteratorWrapper) :=
  match leading iteratorCompareLess index with
  | none => pure none
  | some w => do
    let entry ← w.entry
    pure (if entry.1 < leastKey then some w else none)

/-- Increment the other iterators past the keys below the new position. -/
def catchUp (leastKey : Bytes) : ℕ → List IteratorWrapper → Except MergeError (List IteratorWrapper)
  | 0, index => do
    match ← behind leastKey index with
    | none => pure index
    | some _ => throw .outOfFuel
  | fuel + 1, index => do
    match ← behind leastKey index with
    | none => pure index
    | some w => catchUp leastKey fuel (advance index w)

/-- What `operator--` does after the cursors have been rewound, with more than one delta. -/
def realign (deltas : List StateDelta) (headKey : Option Bytes) (index : List IteratorWrapper) :
    Except MergeError (List IteratorWrapper) := do
  let index ← (leastItr deltas headKey index).elim (pure index) fun w => do
    let entry ← w.entry
    catchUp entry.1 (remaining index) index
  resolveConflicts deltas (remaining index) index

/-- The key of the first wrapper, if that is valid. -/
def headKey : Option Bytes :=
  (leading iteratorCompareLess it.index).bind fun w => w.itr.rest.head?.map Prod.fst

/-- `operator--`. -/
def decrement : Except MergeError MergeIterator := do
  let rewound ← rewindAll it.deltas it.headKey it.index
  let index ← if 1 < it.deltas.length then realign it.deltas it.headKey rewound else pure rewound
  pure { it with index }

/-- `key` and `operator*`. -/
def entry : Except MergeError (Bytes × Bytes) :=
  match (leading iteratorCompareLess it.index).filter IteratorWrapper.valid with
  | none => throw .exception
  | some w => w.entry

end MergeIterator

/-- An object with its key, if it lies in the space. -/
def inSpace (codec : KeyCodec) (space : ObjectSpace) (entry : Bytes × Bytes) :
    Except MergeError (Option (Bytes × Bytes)) :=
  match codec.parse entry.1 with
  | none => throw .malformed
  | some nextKey => pure (if nextKey.space = space then some (entry.2, nextKey.key) else none)

def objectAt (codec : KeyCodec) (space : ObjectSpace) (it : MergeIterator) :
    Except MergeError (Option (Bytes × Bytes)) := do
  let entry ← it.entry
  inSpace codec space entry

/-- Step off the given key. -/
def stepOff (keyString : Bytes) (final it : MergeIterator) : Except MergeError MergeIterator :=
  if it.equal final then pure it
  else do
    let entry ← it.entry
    if entry.1 = keyString then it.increment else pure it

/-- `state_node_impl::get_next_object`. -/
def getNextObject (codec : KeyCodec) (deltas : List StateDelta) (space : ObjectSpace) (key : Bytes) :
    Except MergeError (Option (Bytes × Bytes)) := do
  let keyString := codec.serialize ⟨space, key⟩
  let it ← MergeIterator.lowerBound deltas keyString
  let final ← MergeIterator.finish deltas
  let it ← stepOff keyString final it
  if it.equal final then pure none else objectAt codec space it

/-- `state_node_impl::get_prev_object`. -/
def getPrevObject (codec : KeyCodec) (deltas : List StateDelta) (space : ObjectSpace) (key : Bytes) :
    Except MergeError (Option (Bytes × Bytes)) := do
  let keyString := codec.serialize ⟨space, key⟩
  let it ← MergeIterator.lowerBound deltas keyString
  let first ← MergeIterator.start deltas
  if it.equal first then pure none
  else do
    let it ← it.decrement
    objectAt codec space it

end Teleno.StateDb
