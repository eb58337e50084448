import Teleno.Mempool.Bookkeeping

/-! # What is left of removed transactions

A transaction is added on the pending node of every block, and removed on those of the fork heads. A
removal therefore leaves nothing behind exactly when its transactions are pending on fork heads only.
-/

namespace Teleno.Mempool

open Library StateDb Exec List

variable {codec : Codec} {crypto : Crypto} {algo : ForkResolution}

/-- Every node keeps a ledger, and blocks and pending nodes are paired. -/
structure Consistent (codec : Codec) (crypto : Crypto) (m : MempoolImpl) : Prop where
  sound : Sound codec m
  book : Bookkeeping crypto m

section Crashes

variable {m m' : MempoolImpl} {block : Chain.Block} {e : MempoolError}

/-- The clone of a pending node takes writes. -/
theorem writable_of_cloneNode {db db' : Database} (wf : db.WellFormed) {nodeId newId : Multihash} {header : BlockHeader}
    {p : ℕ} (ran : db.cloneNode nodeId newId header = (.ok (some p), db')) : (db'.heap.cell p).finalized = false := by
  rcases db.cloneNode_cases nodeId newId header with same | ⟨same, -⟩ | ⟨node, found, pending, -, made⟩
  · cases same.symm.trans ran
  · cases same.symm.trans ran
  · cases made.symm.trans ran
    dsimp only
    rw [Heap.clone, db.heap.cell_push (wf.clone_linked found newId header), if_pos rfl]
    exact pending

/-- Cloning a block either works or crashes. -/
theorem cloneBlock_raises (consistent : Consistent codec crypto m)
    (err : cloneBlock codec crypto block m = .error e m') : e = .nullNode := by
  rw [cloneBlock, get_bind] at err
  cases found : m.db.getNode (m.basisId crypto block) with
  | none =>
    rw [found] at err
    cases err
  | some basis =>
    rw [found] at err
    have writable := consistent.book.unfinalized_of_tmpId found
    have every := consistent.sound.cloneNode (m.basisId crypto block) block.id block.header
    rcases onDatabase_eq (·.cloneNode (m.basisId crypto block) block.id block.header) m with
      ⟨node, db, ran, outcome⟩ | ⟨e', db, ran, outcome⟩
    · dsimp only at err
      rw [bind_of_ok outcome] at err
      rw [ran] at every
      cases ids : block.transactions.map Chain.Transaction.id with
      | nil =>
        rw [ids] at err
        cases err
      | cons id ids' =>
        rw [ids] at err
        cases node with
        | none =>
          cases err
          rfl
        | some p =>
          have known := mem_of_cloneNode ran
          obtain ⟨entries, ledger⟩ := every.views p known
          obtain ⟨count, h', ok, -⟩ := removePendingTransactionsOnNode_eq
            ⟨writable_of_cloneNode consistent.book.wf ran, every.wf.tree.held p known⟩ ledger (id :: ids')
          dsimp only at err
          rw [bind_of_ok (dereference_some rfl _), bind_of_ok (onNodes_of_ok ok)] at err
          cases err
    · rw [Database.cloneNode, found] at ran
      simp only [writable, Bool.false_eq_true, if_false] at ran
      split_ifs at ran <;> cases ran

/-- A block that has been cloned is in the database. -/
theorem getNode_of_cloneBlock (consistent : Consistent codec crypto m)
    (ok : cloneBlock codec crypto block m = .ok true m') : (m'.db.getNode block.id).isSome := by
  obtain ⟨node, db, ran, heap, extended, rfl⟩ := cloneBlock_eq_ok ok
  have wf := consistent.book.wf.cloneNode (m.basisId crypto block) block.id block.header
  rw [ran] at wf
  have stays {p : ℕ} (mem : p ∈ db.index) (named : db.heap.id p = block.id) :
      ({ m with db }.withHeap heap).db.getNode block.id = some p := by
    refine (wf.of_extends extended).getNode_iff.mpr ⟨mem, ?_⟩
    exact (congrArg NodeInfo.id (info_of_extends extended (wf.tree.bound p mem))).trans named
  rcases m.db.cloneNode_cases (m.basisId crypto block) block.id block.header with
    same | ⟨same, taken⟩ | ⟨basis, found, -, -, made⟩
  · cases same.symm.trans ran
  · cases same.symm.trans ran
    obtain ⟨p, known⟩ := Option.isSome_iff_exists.mp taken
    obtain ⟨mem, named⟩ := wf.getNode_iff.mp known
    rw [stays mem named]
    rfl
  · cases made.symm.trans ran
    rw [stays (p := m.db.heap.size) (mem_append_right _ (mem_singleton_self _))]
    · rfl
    · dsimp only
      rw [Heap.id, Heap.clone, m.db.heap.cell_push (consistent.book.wf.clone_linked found _ _), if_pos rfl]
      rfl

/-- A known node is finalized, or the process crashes. -/
theorem finalizeBlock_raises {id : Multihash} (known : (m.db.getNode id).isSome)
    (err : finalizeBlock algo id m = .error e m') : e = .nullNode := by
  obtain ⟨node, found⟩ := Option.isSome_iff_exists.mp known
  obtain ⟨e', _, failed, rethrown⟩ := tryCatch_eq_error err
  rcases onDatabase_eq (·.finalizeNode algo id) m with ⟨_, db, -, outcome⟩ | ⟨e'', db, ran, outcome⟩
  · rw [outcome] at failed
    cases failed
  · rw [outcome] at failed
    cases failed
    have internal : e'' = .internalError := by
      simp only [Database.finalizeNode, found] at ran
      cases updated : (m.db.markFinalized node).updateHead algo node with
      | mk result db' =>
        rw [updated] at ran
        cases result with
        | ok => cases ran
        | error e =>
          cases ran
          exact (Database.updateHead_error updated).1
    rw [internal, if_pos rfl] at rethrown
    cases rethrown
    rfl

theorem handleBlock_raises (consistent : Consistent codec crypto m)
    (err : handleBlock codec crypto algo block m = .error e m') : e = .nullNode := by
  rw [handleBlock] at err
  cases cloned : cloneBlock codec crypto block m with
  | error e' m₁ =>
    have crashed := cloneBlock_raises consistent cloned
    rcases bind_eq_error err with fails | ⟨accepted, m₂, returns, -⟩
    · rw [tryCatch_of_error cloned, crashed, if_pos rfl] at fails
      cases fails
      rfl
    · rw [tryCatch_of_error cloned, crashed, if_pos rfl] at returns
      cases returns
  | ok accepted m₁ =>
    rw [bind_of_ok (tryCatch_of_ok cloned)] at err
    cases accepted with
    | false => cases err
    | true =>
      rcases bind_eq_error err with fails | ⟨_, m₂, -, fails⟩
      · exact finalizeBlock_raises (getNode_of_cloneBlock consistent cloned) fails
      · cases fails

end Crashes

section Runs

variable {m : MempoolImpl} {op : MempoolOp}

/-- Only calls that return or that leave the database's nodes alone come back. -/
theorem Consistent.step (injective : Function.Injective (tmpId crypto)) (consistent : Consistent codec crypto m)
    (valid : op.Valid) (settled : Settled codec m op) (plain : op.Plain crypto)
    (survives : ¬ Throws (· = .nullNode) (apply codec crypto algo op) m) :
    Consistent codec crypto (final (apply codec crypto algo op m)) := by
  refine ⟨apply_sound consistent.sound valid settled, ?_⟩
  cases outcome : apply codec crypto algo op m with
  | ok _ m' => exact consistent.book.step injective plain outcome
  | error e m' =>
    have heapOnly (moves : Moves HeapOnly (apply codec crypto algo op)) : Bookkeeping crypto m' := by
      have changed := moves m
      rw [outcome] at changed
      exact consistent.book.heapOnly changed
    cases op with
    | addPendingTransaction transaction time maxPayerRc =>
      exact heapOnly (.bind (heapOnly_addPendingTransaction _ _ _) (fun _ => .pure ()))
    | removePendingTransactions ids =>
      exact heapOnly (.bind (heapOnly_removePendingTransactions ids) (fun _ => .pure ()))
    | prune expiration now => exact heapOnly (.bind (heapOnly_prune expiration now) (fun _ => .pure ()))
    | handleBlock block =>
      rcases bind_eq_error outcome with fails | ⟨_, _, -, fails⟩
      · exact absurd ⟨e, m', outcome, handleBlock_raises consistent fails⟩ survives
      · cases fails
    | handleIrreversibility id =>
      rw [apply, handleIrreversibility, get_bind] at outcome
      cases found : m.db.getNode id with
      | none =>
        rw [found] at outcome
        cases outcome
      | some node =>
        obtain ⟨db, commits⟩ := consistent.book.wf.commitNode_ok crypto found (settled node found)
        rw [found] at outcome
        rcases onDatabase_eq (·.commitNode crypto id true) m with ⟨_, db', ran, returns⟩ | ⟨e', db', ran, -⟩
        · rw [Option.isSome_some, if_pos rfl, bind_of_ok returns] at outcome
          cases outcome
        · rw [commits] at ran
          cases ran

theorem consistent_of_reachable (injective : Function.Injective (tmpId crypto))
    (rootless : ∀ id, tmpId crypto id ≠ Multihash.zero) (reached : (mempoolMachine codec crypto algo).Reachable
      (fun m op => op.Valid ∧ Settled codec m op ∧ op.Plain crypto) m) : Consistent codec crypto m := by
  refine reached.invariant ?_ ?_
  · rintro m rfl
    exact ⟨create_sound codec crypto, bookkeeping_create codec rootless⟩
  · rintro m op m' consistent ⟨valid, settled, plain⟩ ⟨rfl, survives⟩
    exact consistent.step injective valid settled plain survives

end Runs

section Duplicate

/-- The exceptions other than that for a duplicate. -/
abbrev NotDuplicate (e : MempoolError) : Prop := e ≠ .insertionFailure

theorem raises_commitAttempts (attempts : List Attempt) : Raises NotDuplicate (commitAttempts attempts) := by
  induction attempts with
  | nil => exact .pure ()
  | cons attempt attempts ih =>
    intro m e m' err
    rw [commitAttempts, get_bind] at err
    rcases bind_eq_error err with fails | ⟨_, m₁, -, err⟩
    · rw [require] at fails
      split at fails <;> cases fails
      rintro ⟨⟩
    rcases bind_eq_error err with fails | ⟨_, m₂, -, fails⟩
    · obtain ⟨h', fails⟩ := onNodes_eq_error fails
      rw [commitAnonymousNode] at fails
      split_ifs at fails
      cases fails
      rintro ⟨⟩
    · exact ih _ _ _ fails

/-- Only pending transactions make a new one a duplicate. -/
theorem addPendingTransaction_duplicate {m : MempoolImpl} (wf : m.db.WellFormed)
    {transaction : PendingTransaction} {time : ℤ} {maxPayerRc : UInt64} (err : Throws (· = .insertionFailure)
      (addPendingTransaction codec crypto transaction time maxPayerRc) m) :
    ∃ p ∈ m.db.index, (m.db.heap.cell p).finalized = false ∧
      (View.object codec.keys (m.db.heap.find p) Space.transactionIndex transaction.id).isSome := by
  obtain ⟨e, m', err, rfl⟩ := err
  rw [addPendingTransaction, get_bind] at err
  rcases relevantNode_cases crypto (some (m.db.heap.id m.db.head)) m with ⟨tmpHead, ok, -⟩ | fails
  swap
  · rw [bind_of_error fails] at err
    cases err
  rw [bind_of_ok ok] at err
  rcases addOnNodes_staged codec ⟨transaction, UInt64.ofInt (time.tdiv 1000000)⟩ maxPayerRc tmpHead
    fun p mem => wf.tree.bound p (mem_pendingNodes.mp mem).1 with
    ⟨attempts, heap, tried, -⟩ | ⟨e, heap, tried, p, mem, refused⟩
  swap
  · obtain ⟨listed, writable⟩ := mem_pendingNodes.mp mem
    rw [bind_of_error (onNodes_of_error tried)] at err
    cases err
    exact ⟨p, listed, writable, refused.duplicate rfl⟩
  rw [bind_of_ok (onNodes_of_ok tried)] at err
  rcases bind_eq_error err with fails | ⟨_, m₂, -, err⟩
  · rw [require] at fails
    split at fails <;> cases fails
  rcases bind_eq_error err with fails | ⟨_, _, -, fails⟩
  · exact absurd rfl (raises_commitAttempts attempts _ _ _ fails)
  · cases fails

end Duplicate

section Remove

variable {m : MempoolImpl}

/-- Two pending nodes of one block are one node. -/
theorem Bookkeeping.pending_unique (book : Bookkeeping crypto m) {p q b : ℕ} (left : p ∈ m.db.index)
    (left' : (m.db.heap.cell p).finalized = false) (right : q ∈ m.db.index)
    (right' : (m.db.heap.cell q).finalized = false) (up : (m.db.heap.cell p).parent = some b)
    (up' : (m.db.heap.cell q).parent = some b) : p = q := by
  have named {r : ℕ} (mem : r ∈ m.db.index) (open' : (m.db.heap.cell r).finalized = false)
      (up : (m.db.heap.cell r).parent = some b) : m.db.heap.id r = tmpId crypto (m.db.heap.id b) := by
    obtain ⟨b', -, -, shape⟩ := book.paired.owned r mem open'
    have parent : (m.db.heap.cell r).parent = some b' := congrArg NodeInfo.parent shape
    obtain rfl := Option.some.inj (up.symm.trans parent)
    exact congrArg NodeInfo.id shape
  exact book.wf.tree.id_inj p left q right ((named left left' up).trans (named right right' up').symm)

/-- The loop over some blocks drops the transactions on the pending nodes of these blocks alone. -/
theorem removeOnForks_eq (ids : List Bytes) (blocks : List ℕ) (consistent : Consistent codec crypto m)
    (known : ∀ b ∈ blocks, b ∈ m.db.index ∧ (m.db.heap.cell b).finalized = true) :
    ∃ count heap, onForks crypto (fun node => removePendingTransactionsOnNode codec node ids) blocks m =
        .ok count (m.withHeap heap) ∧ m.db.heap.Extends heap ∧ Consistent codec crypto (m.withHeap heap) ∧
      ∀ p ∈ m.db.index, (m.db.heap.cell p).finalized = false →
        ((∀ b ∈ blocks, (m.db.heap.cell p).parent ≠ some b) → heap.find p = m.db.heap.find p) ∧
        ((∃ b ∈ blocks, (m.db.heap.cell p).parent = some b) → ∀ entries,
          Ledger codec (m.db.heap.find p) entries →
            Ledger codec (heap.find p) (entries.filter fun entry => entry.id ∉ ids)) := by
  induction blocks generalizing m with
  | nil =>
    refine ⟨0, m.db.heap, rfl, .refl _, consistent, fun p _ _ => ⟨fun _ => rfl, ?_⟩⟩
    rintro ⟨b, mem, -⟩
    contradiction
  | cons b blocks ih =>
    obtain ⟨mem, done⟩ := known b mem_cons_self
    have found := consistent.book.wf.getNode_iff.mpr ⟨mem, rfl⟩
    obtain ⟨node, inside, writable, up, looked⟩ := consistent.book.relevantNode_eq (some (m.db.heap.id b)) found
      done mem
    obtain ⟨entries₀, ledger₀⟩ := consistent.sound.views node inside
    have open' : Writable m.db.heap node := ⟨writable, consistent.sound.wf.tree.held node inside⟩
    obtain ⟨count, h₁, removed, rewrites, ledger₁⟩ := removePendingTransactionsOnNode_eq open' ledger₀ ids
    have consistent₁ : Consistent codec crypto (m.withHeap h₁) :=
      ⟨consistent.sound.rewrites writable rewrites ⟨_, ledger₁⟩,
        consistent.book.heapOnly ⟨h₁, rewrites.toExtends, rfl⟩⟩
    have finalized (q : ℕ) : (h₁.cell q).finalized = (m.db.heap.cell q).finalized :=
      (rewrites.cell_frame q).finalized_eq
    have parent (q : ℕ) : (h₁.cell q).parent = (m.db.heap.cell q).parent := (rewrites.cell_frame q).parent_eq
    obtain ⟨later, heap, ok, extended, consistent₂, shown⟩ := ih consistent₁ (by
      intro b' inside'
      obtain ⟨mem', done'⟩ := known b' (mem_cons_of_mem _ inside')
      exact ⟨mem', (finalized b').trans done'⟩)
    refine ⟨if m.db.heap.id b = m.db.heap.id m.db.head then count else later, heap, ?_,
      rewrites.toExtends.trans extended, consistent₂, ?_⟩
    · rw [onForks, get_bind, bind_of_ok looked, bind_of_ok (dereference_some rfl m),
        bind_of_ok (onNodes_of_ok removed), bind_of_ok ok]
      rfl
    intro p listed pending
    obtain ⟨skipped, dropped⟩ := shown p listed ((finalized p).trans pending)
    change (∀ b' ∈ blocks, (h₁.cell p).parent ≠ some b') → heap.find p = h₁.find p at skipped
    change (∃ b' ∈ blocks, (h₁.cell p).parent = some b') → ∀ entries, Ledger codec (h₁.find p) entries →
      Ledger codec (heap.find p) (entries.filter fun entry => entry.id ∉ ids) at dropped
    simp only [parent] at skipped dropped
    rcases eq_or_ne p node with rfl | other
    · constructor
      · intro elsewhere
        exact absurd up (elsewhere b mem_cons_self)
      · intro _ entries ledger
        obtain ⟨_, h', removed', -, ledger'⟩ := removePendingTransactionsOnNode_eq open' ledger ids
        rw [removed] at removed'
        cases removed'
        by_cases again : ∃ b' ∈ blocks, (m.db.heap.cell p).parent = some b'
        · have twice := dropped again _ ledger'
          simp only [filter_filter, Bool.and_self] at twice
          exact twice
        · rw [skipped fun b' inside' up' => again ⟨b', inside', up'⟩]
          exact ledger'
    · have same : h₁.find p = m.db.heap.find p :=
        rewrites.find_of_not_mem (consistent.sound.wf.not_mem_path listed writable other)
      rw [same] at skipped dropped
      constructor
      · intro elsewhere
        exact skipped fun b' inside' => elsewhere b' (mem_cons_of_mem _ inside')
      · rintro ⟨b', inside', up'⟩
        refine dropped ⟨b', ?_, up'⟩
        rcases mem_cons.mp inside' with rfl | inside'
        · exact absurd (consistent.book.pending_unique listed pending inside writable up' up) other
        · exact inside'

/-- No transaction with one of the ids is left: no block has it pending, none of them is a duplicate,
and the payers' reservations on every pending node are those of other transactions. -/
structure Gone (codec : Codec) (crypto : Crypto) (ids : List Bytes) (m : MempoolImpl) : Prop where
  hidden : ∀ id ∈ ids, ∀ b ∈ m.db.index, (m.db.heap.cell b).finalized = true →
    hasPendingTransaction codec crypto id (some (m.db.heap.id b)) m = .ok false m
  accepted : ∀ transaction : PendingTransaction, transaction.id ∈ ids → ∀ time maxPayerRc,
    ¬ Throws (· = .insertionFailure) (addPendingTransaction codec crypto transaction time maxPayerRc) m
  uncharged : ∀ p ∈ m.db.index, (m.db.heap.cell p).finalized = false → ∃ entries,
    Ledger codec (m.db.heap.find p) entries ∧ (∀ entry ∈ entries, entry.id ∉ ids) ∧
      ∀ payer maxPayerRc rcLimit,
        checkPendingAccountResourcesOnNode codec p payer maxPayerRc rcLimit m.db.heap =
          .ok (decide (reserved payer entries + rcLimit.toNat ≤ maxPayerRc.toNat)) m.db.heap

/-- The ids are pending on fork heads at most. -/
def OnForkHeads (codec : Codec) (ids : List Bytes) (m : MempoolImpl) : Prop :=
  ∀ p ∈ m.db.index, (m.db.heap.cell p).finalized = false →
    (∀ b ∈ m.db.forkList, (m.db.heap.cell p).parent ≠ some b) →
    ∀ id ∈ ids, View.object codec.keys (m.db.heap.find p) Space.transactionIndex id = none

instance (codec : Codec) (ids : List Bytes) (m : MempoolImpl) : Decidable (OnForkHeads codec ids m) := by
  unfold OnForkHeads
  infer_instance

/-- Ledgers without the ids are all it takes. -/
theorem Gone.of_ledgers {ids : List Bytes} (consistent : Consistent codec crypto m)
    (ledgers : ∀ p ∈ m.db.index, (m.db.heap.cell p).finalized = false → ∃ entries,
      Ledger codec (m.db.heap.find p) entries ∧ ∀ entry ∈ entries, entry.id ∉ ids) : Gone codec crypto ids m := by
  have absent {p : ℕ} (mem : p ∈ m.db.index) (pending : (m.db.heap.cell p).finalized = false) {id : Bytes}
      (removed : id ∈ ids) : View.object codec.keys (m.db.heap.find p) Space.transactionIndex id = none := by
    obtain ⟨entries, ledger, others⟩ := ledgers p mem pending
    refine ledger.index_eq_none_iff.mpr fun entry inside same => ?_
    exact others entry inside (same ▸ removed)
  constructor
  case hidden =>
    intro id removed b mem done
    obtain ⟨p, known, pending, -, looked⟩ := consistent.book.relevantNode_eq (some (m.db.heap.id b))
      (consistent.book.wf.getNode_iff.mpr ⟨mem, rfl⟩) done mem
    have read : getObject codec p Space.transactionIndex id m.db.heap = .ok none m.db.heap := by
      rw [← absent known pending removed]
      rfl
    rw [hasPendingTransaction, bind_of_ok looked]
    dsimp only
    rw [bind_of_ok (onNodes_of_ok read)]
    rfl
  case accepted =>
    intro transaction removed time maxPayerRc duplicate
    obtain ⟨p, mem, pending, indexed⟩ := addPendingTransaction_duplicate consistent.book.wf duplicate
    rw [absent mem pending removed] at indexed
    contradiction
  case uncharged =>
    intro p mem pending
    obtain ⟨entries, ledger, others⟩ := ledgers p mem pending
    have shows := Shows.start (h := m.db.heap) ⟨pending, consistent.book.wf.tree.held p mem⟩
    exact ⟨entries, ledger, others, checkPendingAccountResourcesOnNode_eq shows ledger⟩

/-- After any calls, a removal returns, and nothing is left of the transactions exactly if they were
pending on fork heads at most. -/
theorem removePendingTransactions_gone_iff (codec : Codec) (crypto : Crypto) (algo : ForkResolution)
    (m : MempoolImpl) (injective : Function.Injective (tmpId crypto))
    (rootless : ∀ id, tmpId crypto id ≠ Multihash.zero)
    (reached : (mempoolMachine codec crypto algo).Reachable
      (fun m op => op.Valid ∧ Settled codec m op ∧ op.Plain crypto) m) (ids : List Bytes) :
    ∃ count m', removePendingTransactions codec crypto ids m = .ok count m' ∧
      (Gone codec crypto ids m' ↔ OnForkHeads codec ids m) := by
  have consistent := consistent_of_reachable injective rootless reached
  have forks : ∀ b ∈ m.db.forkList, b ∈ m.db.index ∧ (m.db.heap.cell b).finalized = true := by
    intro b fork
    obtain ⟨id, entry⟩ := Database.mem_forkList_iff.mp fork
    obtain ⟨mem, -, done⟩ := consistent.book.wf.forks id b entry
    exact ⟨mem, done⟩
  obtain ⟨count, heap, ok, extended, consistent', shown⟩ := removeOnForks_eq ids m.db.forkList consistent forks
  have finalized {p : ℕ} (mem : p ∈ m.db.index) : (heap.cell p).finalized = (m.db.heap.cell p).finalized :=
    (extended.frame p (consistent.book.wf.tree.bound p mem)).finalized_eq
  refine ⟨count, m.withHeap heap, ?_, ?_, ?_⟩
  · rw [removePendingTransactions, get_bind, ok]
  · intro gone p mem pending elsewhere id removed
    obtain ⟨entries, ledger, others, -⟩ := gone.uncharged p mem ((finalized mem).trans pending)
    rw [← (shown p mem pending).1 elsewhere]
    refine ledger.index_eq_none_iff.mpr fun entry inside same => ?_
    exact others entry inside (same ▸ removed)
  · intro onForkHeads
    refine .of_ledgers consistent' fun p mem pending' => ?_
    have pending := (finalized mem).symm.trans pending'
    obtain ⟨skipped, dropped⟩ := shown p mem pending
    obtain ⟨entries, ledger⟩ := consistent.sound.views p mem
    by_cases visited : ∃ b ∈ m.db.forkList, (m.db.heap.cell p).parent = some b
    · refine ⟨_, dropped visited entries ledger, fun entry inside => ?_⟩
      exact of_decide_eq_true (mem_filter.mp inside).2
    · have elsewhere : ∀ b ∈ m.db.forkList, (m.db.heap.cell p).parent ≠ some b := fun b fork up => visited ⟨b, fork, up⟩
      refine ⟨entries, ?_, fun entry inside removed => ?_⟩
      · change Ledger codec (heap.find p) entries
        rw [skipped elsewhere]
        exact ledger
      · have absent := onForkHeads p mem pending elsewhere entry.id removed
        exact ledger.index_eq_none_iff.mp absent entry inside rfl

/-- Calls on the runs below. -/
def admits (m : MempoolImpl) (op : MempoolOp) : Bool :=
  op.Valid ∧ Settled .transparent m op ∧ plainName op

theorem admits_sound (m : MempoolImpl) (op : MempoolOp) (admitted : admits m op = true) :
    op.Valid ∧ Settled .transparent m op ∧ op.Plain marked := by
  obtain ⟨valid, settled, named⟩ := of_decide_eq_true admitted
  exact ⟨valid, settled, plain_of_plainName named⟩

/-- Before the first block the root is the only fork head. -/
theorem removePendingTransactions_gone_iff_of_firstTransaction :
    ∃ m, run .transparent marked .fifo admits (.create .transparent marked) (competingBlocks.take 1) = some m ∧
      ∃ count m', removePendingTransactions .transparent marked [[1]] m = .ok count m' ∧
        Gone .transparent marked [[1]] m' := by
  have ran : (run .transparent marked .fifo admits (.create .transparent marked) (competingBlocks.take 1)).any
      (fun m => OnForkHeads .transparent [[1]] m) = true := by decide +kernel
  obtain ⟨m, ran, onForkHeads⟩ := exists_of_any ran
  obtain ⟨count, m', ok, gone⟩ := removePendingTransactions_gone_iff .transparent marked .fifo m
    cons_injective (fun id same => absurd (cons.inj same).1 (by decide))
    (reachable_of_run admits_sound (.start rfl) ran) [[1]]
  exact ⟨m, ran, count, m', ok, gone.mpr onForkHeads⟩

/-- Once a block has followed, a removed transaction stays pending on the root, and adding it again fails. -/
theorem removePendingTransactions_leaves_duplicate :
    ∃ m, (mempoolMachine .transparent marked .fifo).Reachable
        (fun m op => op.Valid ∧ Settled .transparent m op ∧ op.Plain marked) m ∧
      value (removePendingTransactions .transparent marked [[1]] m) = some 1 ∧
      value (hasPendingTransaction .transparent marked [1] (some .zero)
        (final (removePendingTransactions .transparent marked [[1]] m))) = some true ∧
      Throws (· = .insertionFailure) (addPendingTransaction .transparent marked
        { id := [1], payer := [7], nonce := [1], rcLimit := 10 } 0 100)
        (final (removePendingTransactions .transparent marked [[1]] m)) :=
  exists_run admits_sound (competingBlocks.take 2) (by decide +kernel)

end Remove

end Teleno.Mempool
