import Teleno.Mempool.MempoolImpl
import Teleno.Mempool.OnNode
import Teleno.StateDb.EveryView

/-! # What the programs of the mempool touch

Work on a node writes to that node alone. Adding a transaction writes to new anonymous nodes until they
are committed, and no call on pending transactions changes anything but the heap.
-/

namespace Teleno.Mempool

open Library StateDb Exec

variable {codec : Codec} {crypto : Crypto}

/-- One node is written to, unless it is finalized. -/
structure Touches (p : ℕ) (h h' : Heap) : Prop where
  rewrites : h.Rewrites p h'
  idle : (h.cell p).finalized = true → h' = h

instance (p : ℕ) : IsPreorder Heap (Touches p) where
  refl h := ⟨.refl h p, fun _ => rfl⟩
  trans _ _ _ first second := by
    refine ⟨first.rewrites.trans second.rewrites, fun done => ?_⟩
    obtain rfl := first.idle done
    exact second.idle done

instance : IsPreorder Heap Heap.Grows where
  refl := .refl
  trans _ _ _ first second := first.trans second

section Reads

variable {α β : Type} {p : ℕ} {rel : Heap → Heap → Prop} [IsPreorder Heap rel]

theorem moves_getObject (space : ObjectSpace) (key : Bytes) : Moves rel (getObject codec p space key) :=
  .of_final fun _ => rfl

theorem moves_convert (parsed : Option α) : Moves rel (convert parsed) := .of_final (final_convert parsed)

theorem moves_dereference (pointer : Option α) :
    Moves rel (dereference pointer : NodeM α) := .of_final (final_dereference pointer)

theorem moves_bind_getObject {space : ObjectSpace} {key : Bytes} {next : Option Bytes → NodeM β}
    (absent : Moves rel (next none)) (present : ∀ obj, Moves rel (next (some obj))) :
    Moves rel (getObject codec p space key >>= next) := by
  refine .bind (moves_getObject _ _) (fun found => ?_)
  cases found with
  | none => exact absent
  | some obj => exact present obj

theorem moves_checkPendingAccountResourcesOnNode (payer : Bytes) (maxPayerRc rcLimit : UInt64) :
    Moves rel (checkPendingAccountResourcesOnNode codec p payer maxPayerRc rcLimit) :=
  moves_bind_getObject (.pure _) (fun _ => .bind (moves_convert _) (fun _ => .pure _))

theorem moves_checkAccountNonceOnNode (key : Bytes) : Moves rel (checkAccountNonceOnNode codec p key) :=
  .bind (moves_getObject _ _) (fun _ => .pure _)

theorem moves_nextSeqNum : Moves rel (nextSeqNum codec p) :=
  moves_bind_getObject (.pure _) (fun _ => .bind (moves_convert _) (fun _ => .pure _))

theorem moves_reserveResources (payer : Bytes) (maxPayerRc rcLimit : UInt64) :
    Moves rel (reserveResources codec p payer maxPayerRc rcLimit) :=
  moves_bind_getObject (.pure _) (fun _ => .bind (moves_convert _) (fun _ => .pure _))

end Reads

section Writes

variable {α : Type} {p : ℕ}

/-- The program writes to one node. -/
abbrev Writes {α : Type} (p : ℕ) (program : NodeM α) : Prop := Moves (Touches p) program

theorem writes_putObject (space : ObjectSpace) (key value : Bytes) : Writes p (putObject codec p space key value) := by
  intro h
  rw [putObject, Heap.putObject]
  split_ifs with done
  · exact refl_of (Touches p) h
  · exact ⟨h.rewrites_put _ value, fun done' => absurd done' done⟩

theorem writes_removeObject (space : ObjectSpace) (key : Bytes) : Writes p (removeObject codec p space key) := by
  intro h
  rw [removeObject, Heap.removeObject]
  split_ifs with done
  · exact refl_of (Touches p) h
  · exact ⟨h.rewrites_erase _ false, fun done' => absurd done' done⟩

theorem writes_dropRecord (seq id : Bytes) (record : PendingTransactionRecord) :
    Writes p (dropRecord codec p seq id record) := by
  have cleanup : Writes p (cleanupAccountResourcesOnNode codec p record) := by
    refine .bind (moves_getObject _ _) (fun obj => .bind (moves_dereference obj) (fun stored =>
      .bind (moves_convert _) (fun arr => ?_)))
    split
    · exact writes_removeObject _ _
    · exact writes_putObject _ _ _
  refine .bind cleanup (fun _ => .bind (writes_removeObject _ _) (fun _ => ?_))
  refine .bind (writes_removeObject _ _) (fun _ => .bind (moves_convert _) (fun _ => ?_))
  exact writes_removeObject _ _

theorem writes_removePendingTransactionsOnNode (ids : List Bytes) :
    Writes p (removePendingTransactionsOnNode codec p ids) := by
  induction ids with
  | nil => exact .pure 0
  | cons id ids ih =>
    refine .bind (moves_getObject _ _) (fun found => ?_)
    cases found with
    | none => exact ih
    | some seq =>
      refine .bind (moves_getObject _ _) (fun obj => .bind (moves_dereference obj) (fun stored => ?_))
      refine .bind (moves_convert _) (fun record => .bind (writes_dropRecord _ _ _) (fun _ => ?_))
      exact .bind ih (fun _ => .pure _)

theorem writes_pruneOnNode (expiration now : ℤ) (fuel : ℕ) : Writes p (pruneOnNode codec p expiration now fuel) := by
  induction fuel with
  | zero => exact .of_final fun _ => rfl
  | succ fuel ih =>
    refine .bind (.of_final fun h => ?_) (fun found => ?_)
    · rw [getNextObject]
      split
      · rfl
      · split
        · rfl
        · split <;> rfl
    · cases found with
      | none => exact .pure 0
      | some next =>
        refine .bind (moves_convert _) (fun record => ?_)
        split
        · exact .pure 0
        · exact .bind (writes_dropRecord _ _ _) (fun _ => .bind ih (fun _ => .pure _))

theorem writes_addPendingTransactionToNode (record : PendingTransactionRecord) (maxPayerRc : UInt64) :
    Writes p (addPendingTransactionToNode codec p record maxPayerRc) := by
  refine .bind (moves_checkPendingAccountResourcesOnNode _ _ _) (fun _ => .bind (.require _ _) (fun _ => ?_))
  refine .bind (moves_getObject _ _) (fun _ => .bind (.require _ _) (fun _ => ?_))
  refine .bind (moves_convert _) (fun key => .bind (moves_checkAccountNonceOnNode key) (fun _ => ?_))
  refine .bind (.require _ _) (fun _ => ?_)
  refine .bind moves_nextSeqNum (fun _ => .bind (writes_putObject _ _ _) (fun _ => ?_))
  refine .bind (writes_putObject _ _ _) (fun _ => .bind (writes_putObject _ _ _) (fun _ => ?_))
  refine .bind (moves_reserveResources _ _ _) (fun _ => .bind (writes_putObject _ _ _) (fun _ => ?_))
  exact .bind (writes_putObject _ _ _) (fun _ => .pure _)

end Writes

section Anonymous

/-- A transaction is tried on anonymous nodes. -/
theorem grows_addOnNode (codec : Codec) (record : PendingTransactionRecord) (maxPayerRc : UInt64) (tmpHead : Option ℕ)
    (node : ℕ) : Moves Heap.Grows (addOnNode codec record maxPayerRc tmpHead node) := by
  intro h
  have created : createAnonymousNode node h = .ok h.size (h.makeChild node [] {}) := rfl
  have attempted : Writes h.size (do
      let rcUsed ← addPendingTransactionToNode codec h.size record maxPayerRc
      let _ ← dereference tmpHead
      pure (⟨node, h.size, some rcUsed⟩ : Attempt)) :=
    .bind (writes_addPendingTransactionToNode _ _) (fun _ => .bind (moves_dereference _) (fun _ => .pure _))
  rw [addOnNode, bind_of_ok created]
  refine (Heap.Grows.makeChild h node [] {}).rewrites le_rfl ?_
  refine (Moves.tryCatch attempted (fun e => ?_) (h.makeChild node [] {})).rewrites
  split
  · exact .pure _
  · exact .of_final fun _ => rfl

theorem grows_addOnNodes (codec : Codec) (record : PendingTransactionRecord) (maxPayerRc : UInt64) (tmpHead : Option ℕ)
    (nodes : List ℕ) : Moves Heap.Grows (addOnNodes codec record maxPayerRc tmpHead nodes) := by
  induction nodes with
  | nil => exact .pure _
  | cons node nodes ih => exact .bind (grows_addOnNode _ _ _ _ _) (fun _ => .bind ih (fun _ => .pure _))

theorem extends_commitAnonymousNode (attempt : Attempt) : Moves Heap.Extends (commitAnonymousNode attempt) := by
  intro h
  rw [commitAnonymousNode]
  split_ifs
  · exact .refl h
  · exact (Heap.Extends.squash h _).trans (.makeChild _ _ _ _)

end Anonymous

section HeapOnly

/-- Looking for a pending node changes nothing. -/
theorem relevantNode_cases (crypto : Crypto) (id : Option Multihash) (m : MempoolImpl) :
    (∃ found, relevantNode crypto id m = .ok found m ∧ ∀ p, found = some p → p ∈ m.db.index) ∨
      relevantNode crypto id m = .error .missingMutex m := by
  rw [relevantNode, get_bind]
  cases id.elim (some m.db.head) m.db.getNode with
  | none => exact .inl ⟨none, rfl, fun p found => by contradiction⟩
  | some node =>
    dsimp only
    cases guarded : m.mutexes.contains (tmpId crypto (m.db.heap.id node)) with
    | true => exact .inl ⟨_, rfl, fun p found => List.mem_of_find?_eq_some found⟩
    | false => exact .inr rfl

/-- Nothing but the objects and the anonymous nodes has changed. -/
def HeapOnly (m m' : MempoolImpl) : Prop := ∃ heap, m.db.heap.Extends heap ∧ m' = m.withHeap heap

instance : IsPreorder MempoolImpl HeapOnly where
  refl m := ⟨m.db.heap, .refl _, rfl⟩
  trans := by
    rintro m m' m'' ⟨heap, first, rfl⟩ ⟨heap', second, rfl⟩
    exact ⟨heap', first.trans second, rfl⟩

theorem heapOnly_onNodes {α : Type} {program : NodeM α} (moves : Moves Heap.Extends program) :
    Moves HeapOnly (onNodes program) := by
  intro m
  rw [final_onNodes]
  exact ⟨_, moves m.db.heap, rfl⟩

theorem heapOnly_relevantNode (id : Option Multihash) : Moves HeapOnly (relevantNode crypto id) := by
  refine .of_final fun m => ?_
  rcases relevantNode_cases crypto id m with ⟨found, ok, -⟩ | err
  · rw [ok, final]
  · rw [err, final]

theorem heapOnly_commitAttempts (attempts : List Attempt) : Moves HeapOnly (commitAttempts attempts) := by
  induction attempts with
  | nil => exact .pure ()
  | cons attempt attempts ih =>
    refine .get_bind (fun m => .bind (.require _ _) (fun _ => ?_))
    exact .bind (heapOnly_onNodes (extends_commitAnonymousNode attempt)) (fun _ => ih)

theorem heapOnly_addPendingTransaction (transaction : PendingTransaction) (time : ℤ) (maxPayerRc : UInt64) :
    Moves HeapOnly (addPendingTransaction codec crypto transaction time maxPayerRc) := by
  refine .get_bind (fun m => .bind (heapOnly_relevantNode _) (fun tmpHead => ?_))
  refine .bind (heapOnly_onNodes ((grows_addOnNodes _ _ _ _ _).mono fun _ _ grows => grows.toExtends)) ?_
  intro attempts
  exact .bind (.require _ _) (fun _ => .bind (heapOnly_commitAttempts attempts) (fun _ => .pure _))

theorem heapOnly_onForks {visit : ℕ → NodeM ℕ} (writes : ∀ p, Writes p (visit p)) (blocks : List ℕ) :
    Moves HeapOnly (onForks crypto visit blocks) := by
  induction blocks with
  | nil => exact .pure 0
  | cons block blocks ih =>
    refine .get_bind (fun m => .bind (heapOnly_relevantNode _) (fun found => ?_))
    refine .bind (.of_final (final_dereference found)) (fun node => ?_)
    have visited := (writes node).mono fun _ _ touches => touches.rewrites.toExtends
    exact .bind (heapOnly_onNodes visited) (fun _ => .bind ih (fun _ => .pure _))

theorem heapOnly_removePendingTransactions (ids : List Bytes) :
    Moves HeapOnly (removePendingTransactions codec crypto ids) :=
  .get_bind fun m => heapOnly_onForks (fun _ => writes_removePendingTransactionsOnNode ids) m.db.forkList

theorem heapOnly_prune (expiration now : ℤ) : Moves HeapOnly (prune codec crypto expiration now) :=
  .get_bind fun m => heapOnly_onForks (fun _ h => writes_pruneOnNode expiration now _ h) m.db.forkList

end HeapOnly

end Teleno.Mempool
