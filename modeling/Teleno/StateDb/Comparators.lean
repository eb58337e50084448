import Teleno.StateDb.StateDelta

/-! # Fork resolution

A comparator picks the head among the current head and a newly finalized node of the same revision.
The proof-of-burn comparator drops both when they come from one signer and falls back to the best
remaining fork head, or to the head's parent when that has priority; no answer stands for the
parent.
-/

namespace Teleno.StateDb

/-- `fork_resolution_algorithm`. -/
inductive ForkResolution where
  | fifo
  | blockTime
  | pob
deriving DecidableEq, Repr

namespace Heap

variable (h : Heap)

def timestamp (p : ℕ) : ℕ := (h.cell p).blockHeader.timestamp

def signer (p : ℕ) : Bytes := (h.cell p).blockHeader.signer

/-- The revision of the delta at an address. -/
def revision (p : ℕ) : ℕ := (h.cell p).revision

def id (p : ℕ) : Multihash := (h.cell p).id

/-- Higher revision first, then earlier timestamp, then smaller id. -/
def priorityAlgorithm (a b : ℕ) : Bool :=
  if h.revision a > h.revision b then true
  else if h.revision a < h.revision b then false
  else if h.timestamp a < h.timestamp b then true
  else if h.timestamp a > h.timestamp b then false
  else (compare (h.id a) (h.id b)).isLT

/-- `std::sort` by priority. -/
def sortForks (forks : List ℕ) : List ℕ := forks.insertionSort fun a b => h.priorityAlgorithm b a = false

def fifoComparator (_forks : List ℕ) (currentHead _newHead : ℕ) : Option ℕ := some currentHead

def blockTimeComparator (_forks : List ℕ) (headBlock newBlock : ℕ) : Option ℕ :=
  some (if h.timestamp newBlock < h.timestamp headBlock then newBlock else headBlock)

/-- The head's parent exists whenever another node can have the head's revision. -/
def pobComparator (forks : List ℕ) (headBlock newBlock : ℕ) : Option ℕ :=
  if h.signer headBlock ≠ h.signer newBlock then
    some (if h.timestamp newBlock < h.timestamp headBlock then newBlock else headBlock)
  else
    match h.sortForks (forks.eraseP fun p => h.id p == h.id headBlock) with
    | [] => none
    | best :: _ =>
      (h.cell headBlock).parent.bind fun parent =>
        if h.priorityAlgorithm parent best then none else some best

def comparator : ForkResolution → List ℕ → ℕ → ℕ → Option ℕ
  | .fifo => fifoComparator
  | .blockTime => h.blockTimeComparator
  | .pob => h.pobComparator

end Heap

end Teleno.StateDb
