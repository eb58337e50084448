import Teleno.Mempool.Bookkeeping

/-! # Adding a transaction on all forks

`add_pending_transaction` tries a transaction on an anonymous node above every pending node, and commits
the anonymous nodes when none of them has refused it for another reason than its nonce. What a node does
with the transaction is a function of what it shows. The views of all pending nodes together decide
whether the call returns, and which of them have the transaction afterwards.
-/

namespace Teleno.Mempool

open Library StateDb Exec Space View List

variable {codec : Codec} {crypto : Crypto}

def getReservedAccountRcFromNode (codec : Codec) (p : ℕ) (account : Bytes) : NodeM UInt64 := do
  match ← getObject codec p addressResources account with
  | some obj =>
    let arr ← convert (codec.parseResources obj)
    pure (arr.maxRc - arr.currentRc)
  | none => pure 0

/-- The transaction is in the four tables of `after`, and its limit is reserved beside what `before`
reserves for the payer. -/
structure Entered (codec : Codec) (record : PendingTransactionRecord) (maxPayerRc : UInt64)
    (before after : View) : Prop where
  listed : ∃ seq,
    object codec.keys after pendingTransaction (uint64Bytes seq) = some (codec.record record) ∧
    object codec.keys after transactionIndex record.transaction.id = some (uint64Bytes seq)
  reserved : ∃ old new, resourceRecord codec before record.transaction.payer = some old ∧
    object codec.keys after addressResources record.transaction.payer = some (codec.resources new) ∧
    new.maxRc = maxPayerRc ∧ new.maxRc - new.currentRc = reservedBy old + record.transaction.rcLimit
  nonce : ∃ key, createAccountNonceKey codec record.transaction = some key ∧
    object codec.keys after accountNonce key = some []

theorem getReservedAccountRcFromNode_eq (codec : Codec) (h : Heap) (p : ℕ) (payer : Bytes) :
    getReservedAccountRcFromNode codec p payer h =
      convert ((resourceRecord codec (h.find p) payer).map reservedBy) h := by
  have found : getObject codec p addressResources payer h =
      .ok (object codec.keys (h.find p) addressResources payer) h := rfl
  rw [getReservedAccountRcFromNode, bind_of_ok found, resourceRecord]
  cases object codec.keys (h.find p) addressResources payer with
  | none => rfl
  | some obj =>
    dsimp only
    cases codec.parseResources obj <;> rfl

/-- A node that has taken the transaction. -/
theorem Verdict.entered {record : PendingTransactionRecord} {maxPayerRc : UInt64} {before after : View}
    {rcUsed : Option UInt64} (verdict : Verdict codec record maxPayerRc before after rcUsed)
    (joins : Joins codec before record.transaction maxPayerRc) :
    Entered codec record maxPayerRc before after ∧
      (resourceRecord codec after record.transaction.payer).map reservedBy = rcUsed := by
  rcases verdict with ⟨-, old, key, seqNum, stored, named, counted, rfl, rfl⟩ | ⟨conflicts, -⟩
  swap
  · exact absurd joins.free conflicts.not_free
  have reserves := reservedBy_extended maxPayerRc record.transaction.rcLimit old
  constructor
  · refine ⟨⟨seqNum, ?_, ?_⟩, ⟨old, _, stored, ?_, extended_maxRc _ _ _, reserves⟩, key, named, ?_⟩
    all_goals simp [added, object_write, pendingTransaction, transactionIndex, addressResources, accountNonce]
  · rw [resourceRecord, resources_added, if_pos rfl, ← reserves]
    dsimp only
    rw [codec.parse_resources]
    rfl

section Forks

variable (codec crypto) (m : MempoolImpl) (transaction : PendingTransaction) (time : ℤ) (maxPayerRc : UInt64)

/-- The record that is stored for a transaction. -/
def recordAt : PendingTransactionRecord := ⟨transaction, UInt64.ofInt (time.tdiv 1000000)⟩

/-- No pending node refuses the transaction, and one of them takes it. -/
structure Admitted : Prop where
  unrefused : ∀ p ∈ pendingNodes m.db, Joins codec (m.db.heap.find p) transaction maxPayerRc ∨
    Conflicts codec (m.db.heap.find p) transaction maxPayerRc
  taken : ∃ p ∈ pendingNodes m.db, Joins codec (m.db.heap.find p) transaction maxPayerRc

/-- A call that throws changes no lookup. A call that returns enters the transaction on every pending
node whose slot was free, of which there is one, leaves the other nodes as they were, and reports what
the head's pending node reserves for the payer. -/
structure AddsAtomically : Prop where
  refused : ∀ e m', addPendingTransaction codec crypto transaction time maxPayerRc m = .error e m' →
    ∀ p < m.db.heap.size, m'.db.heap.find p = m.db.heap.find p
  entered : ∀ rcUsed m', addPendingTransaction codec crypto transaction time maxPayerRc m = .ok rcUsed m' →
    ∀ p ∈ pendingNodes m.db, NonceFree codec (m.db.heap.find p) transaction →
      Entered codec (recordAt transaction time) maxPayerRc (m.db.heap.find p) (m'.db.heap.find p)
  others : ∀ rcUsed m', addPendingTransaction codec crypto transaction time maxPayerRc m = .ok rcUsed m' →
    ∀ p ∈ m.db.index, ¬ (p ∈ pendingNodes m.db ∧ NonceFree codec (m.db.heap.find p) transaction) →
      m'.db.heap.find p = m.db.heap.find p
  received : ∀ rcUsed m', addPendingTransaction codec crypto transaction time maxPayerRc m = .ok rcUsed m' →
    ∃ p ∈ pendingNodes m.db, NonceFree codec (m.db.heap.find p) transaction
  reported : ∀ rcUsed m', addPendingTransaction codec crypto transaction time maxPayerRc m = .ok rcUsed m' →
    ∃ p, relevantNode crypto (some (m.db.heap.id m.db.head)) m = .ok (some p) m ∧
      getReservedAccountRcFromNode codec p transaction.payer m'.db.heap = .ok rcUsed m'.db.heap

/-- If the transaction is admitted, and the head's pending node is not among those that take it, then
that node reserves nothing for the payer. -/
def HeadReports : Prop :=
  Admitted codec m transaction maxPayerRc →
    ∀ p, relevantNode crypto (some (m.db.heap.id m.db.head)) m = .ok (some p) m →
      Conflicts codec (m.db.heap.find p) transaction maxPayerRc →
        (resourceRecord codec (m.db.heap.find p) transaction.payer).map reservedBy = some 0

variable {codec crypto m}

theorem Bookkeeping.head_pending (book : Bookkeeping crypto m) : ∃ head ∈ pendingNodes m.db,
    relevantNode crypto (some (m.db.heap.id m.db.head)) m = .ok (some head) m := by
  have found : m.db.getNode (m.db.heap.id m.db.head) = some m.db.head := book.wf.getNode_iff.mpr ⟨book.wf.head_mem, rfl⟩
  obtain ⟨head, mem, open', -, looked⟩ := book.relevantNode_eq (some (m.db.heap.id m.db.head)) found
    book.wf.head_finalized book.wf.head_mem
  exact ⟨head, mem_pendingNodes.mpr ⟨mem, open'⟩, looked⟩

/-- The attempt on a node is found by its node. -/
theorem find_attempt {attempts : List Attempt} (distinct : (attempts.map Attempt.node).Nodup) {attempt : Attempt}
    (mem : attempt ∈ attempts) : (attempts.find? fun other => some other.node == some attempt.node) = some attempt := by
  cases search : attempts.find? fun other => some other.node == some attempt.node with
  | none =>
    have missed := find?_eq_none.mp search attempt mem
    exact absurd BEq.rfl missed
  | some found =>
    have same := find?_some search
    rw [beq_iff_eq, Option.some.injEq] at same
    rw [inj_on_of_nodup_map distinct (mem_of_find?_eq_some search) mem same]

theorem mem_pendingNodes_of_extends {db : Database} (wf : db.WellFormed) {heap : Heap}
    (extended : db.heap.Extends heap) {p : ℕ} : p ∈ pendingNodes { db with heap } ↔ p ∈ pendingNodes db := by
  rw [mem_pendingNodes, mem_pendingNodes]
  refine and_congr_right fun mem => ?_
  have same : (heap.cell p).finalized = (db.heap.cell p).finalized :=
    congrArg NodeInfo.finalized (info_of_extends extended (wf.tree.bound p mem))
  rw [← same]

/-- With the bookkeeping in order nothing can go wrong once the transaction is staged everywhere. -/
theorem commitAttempts_of_bookkeeping (book : Bookkeeping crypto m) {record : PendingTransactionRecord} {start : Heap}
    {attempts : List Attempt} (below : ∀ p ∈ m.db.index, p < start.size) (distinct : (attempts.map Attempt.node).Nodup)
    (nodes : ∀ p, p ∈ attempts.map Attempt.node ↔ p ∈ pendingNodes m.db)
    (staged : ∀ attempt ∈ attempts, Staged codec record maxPayerRc start m.db.heap attempt) :
    ∃ heap, commitAttempts attempts m = .ok () (m.withHeap heap) ∧
      (∀ attempt ∈ attempts, heap.find attempt.node = m.db.heap.find attempt.anonymous) ∧
      ∀ p ∈ m.db.index, p ∉ pendingNodes m.db → heap.find p = m.db.heap.find p := by
  have listed (attempt : Attempt) (mem : attempt ∈ attempts) :=
    mem_pendingNodes.mp ((nodes _).mp (mem_map_of_mem mem))
  obtain ⟨committed, heap, -, -, -, found, unchanged, all⟩ := commitAttempts_cases book.wf below distinct listed staged
  obtain ⟨rfl, commits⟩ := all fun attempt mem =>
    (book.paired.guarded _).mpr ⟨_, (listed attempt mem).1, (listed attempt mem).2, rfl⟩
  simp only [← nodes]
  exact ⟨heap, commits, found, unchanged⟩

/-- The views of the pending nodes decide between the two outcomes. -/
theorem addPendingTransaction_cases (book : Bookkeeping crypto m) {head : ℕ} (known : head ∈ pendingNodes m.db)
    (looked : relevantNode crypto (some (m.db.heap.id m.db.head)) m = .ok (some head) m) :
    (∃ e m', addPendingTransaction codec crypto transaction time maxPayerRc m = .error e m' ∧
      ¬ Admitted codec m transaction maxPayerRc ∧
      ∀ p < m.db.heap.size, m'.db.heap.find p = m.db.heap.find p) ∨
    ∃ rcUsed m', addPendingTransaction codec crypto transaction time maxPayerRc m = .ok rcUsed m' ∧
      Admitted codec m transaction maxPayerRc ∧
      (∀ p ∈ pendingNodes m.db, ∃ used, Verdict codec (recordAt transaction time) maxPayerRc
        (m.db.heap.find p) (m'.db.heap.find p) used ∧ (p = head → rcUsed = used.getD 0)) ∧
      ∀ p ∈ m.db.index, p ∉ pendingNodes m.db → m'.db.heap.find p = m.db.heap.find p := by
  have bound (p : ℕ) (mem : p ∈ pendingNodes m.db) : p < m.db.heap.size :=
    book.wf.tree.bound p (mem_pendingNodes.mp mem).1
  have grows := grows_addOnNodes codec (recordAt transaction time) maxPayerRc (some head) (pendingNodes m.db) m.db.heap
  rw [addPendingTransaction, get_bind, bind_of_ok looked]
  rcases addOnNodes_staged codec (recordAt transaction time) maxPayerRc (some head) bound with
    ⟨attempts, h, tried, nodes, staged⟩ | ⟨e, h, err, node, mem, refused⟩
  swap
  · rw [err, final] at grows
    refine .inl ⟨e, m.withHeap h, bind_of_error (onNodes_of_error err), ?_, fun p => grows.find_eq⟩
    obtain ⟨notJoins, notConflicts⟩ := refused.neither rfl
    exact fun admitted => (admitted.unrefused node mem).elim notJoins notConflicts
  rw [tried, final] at grows
  have attempted (p : ℕ) (mem : p ∈ pendingNodes m.db) : ∃ attempt ∈ attempts, attempt.node = p :=
    mem_map.mp (nodes ▸ mem)
  have tries := onNodes_of_ok tried
  rw [recordAt] at tries
  rw [bind_of_ok tries, require_bind]
  by_cases taken : (attempts.any fun attempt => attempt.rcUsed.isSome) = true
  swap
  · rw [if_neg taken]
    refine .inl ⟨_, _, rfl, ?_, fun p => grows.find_eq⟩
    rintro ⟨-, p, mem, joins⟩
    obtain ⟨attempt, inside, rfl⟩ := attempted p mem
    exact taken (any_eq_true.mpr ⟨attempt, inside, (staged attempt inside).verdict.isSome_iff.mpr joins⟩)
  rw [if_pos taken]
  have book' : Bookkeeping crypto (m.withHeap h) := book.heapOnly ⟨h, grows.toExtends, rfl⟩
  have pending (p : ℕ) : p ∈ attempts.map Attempt.node ↔ p ∈ pendingNodes (m.withHeap h).db := by
    rw [nodes]
    exact (mem_pendingNodes_of_extends book.wf grows.toExtends).symm
  obtain ⟨heap, commits, found, unchanged⟩ := commitAttempts_of_bookkeeping maxPayerRc book'
    book.wf.tree.bound (nodes ▸ nodup_pendingNodes book.wf) pending staged
  refine .inr ⟨_, (m.withHeap h).withHeap heap, bind_of_ok commits, ⟨?_, ?_⟩, ?_, ?_⟩
  · intro p mem
    obtain ⟨attempt, inside, rfl⟩ := attempted p mem
    exact (staged attempt inside).verdict.imp And.left And.left
  · obtain ⟨attempt, inside, used⟩ := any_eq_true.mp taken
    exact ⟨attempt.node, nodes ▸ mem_map_of_mem inside, (staged attempt inside).verdict.isSome_iff.mp used⟩
  · intro p mem
    obtain ⟨attempt, inside, rfl⟩ := attempted p mem
    refine ⟨attempt.rcUsed, ?_, ?_⟩
    · change Verdict _ _ _ _ (heap.find attempt.node) _
      rw [found attempt inside]
      exact (staged attempt inside).verdict
    · rintro rfl
      rw [find_attempt (nodes ▸ nodup_pendingNodes book.wf) inside]
      rfl
  · intro p mem outside
    have outside' : p ∉ pendingNodes (m.withHeap h).db := by
      rw [← pending, nodes]
      exact outside
    exact (unchanged p mem outside').trans (grows.find_eq (book.wf.tree.bound p mem))

/-- The head's pending node reserves what is reported, unless the transaction was not entered there. -/
theorem reported_iff {head : ℕ} {m' : MempoolImpl} {used : Option UInt64}
    (verdict : Verdict codec (recordAt transaction time) maxPayerRc (m.db.heap.find head)
      (m'.db.heap.find head) used) :
    getReservedAccountRcFromNode codec head transaction.payer m'.db.heap = .ok (used.getD 0) m'.db.heap ↔
      (Conflicts codec (m.db.heap.find head) transaction maxPayerRc →
        (resourceRecord codec (m.db.heap.find head) transaction.payer).map reservedBy = some 0) := by
  rw [getReservedAccountRcFromNode_eq]
  by_cases joins : Joins codec (m.db.heap.find head) transaction maxPayerRc
  · obtain ⟨-, reserves⟩ := verdict.entered joins
    obtain ⟨rcUsed, rfl⟩ := Option.isSome_iff_exists.mp (verdict.isSome_iff.mpr joins)
    exact iff_of_true (convert_some reserves _) fun conflicts => absurd joins.free conflicts.not_free
  · obtain ⟨conflicts, same, rfl⟩ := verdict.resolve_left fun taken => joins taken.1
    rw [same]
    constructor
    · intro reads _
      cases parsed : (resourceRecord codec (m.db.heap.find head) transaction.payer).map reservedBy <;>
        rw [parsed] at reads <;> cases reads
      rfl
    · intro nothing
      exact convert_some (nothing conflicts) _

/-- Adding a transaction is atomic, but for the value that it reports when the head's pending node is
passed over. -/
theorem addPendingTransaction_atomic_iff (book : Bookkeeping crypto m) :
    AddsAtomically codec crypto m transaction time maxPayerRc ↔
      HeadReports codec crypto m transaction maxPayerRc := by
  obtain ⟨head, known, looked⟩ := book.head_pending
  rcases addPendingTransaction_cases transaction time maxPayerRc book known looked with
    ⟨e, m', err, unadmitted, unchanged⟩ | ⟨rcUsed, m', ok, admitted, verdicts, unchanged⟩
  · refine iff_of_true ?_ fun admitted => absurd admitted unadmitted
    constructor
    case refused =>
      rintro e' m'' err'
      rw [err] at err'
      cases err'
      exact unchanged
    all_goals
      intro rcUsed m'' ok
      rw [err] at ok
      contradiction
  have only {rcUsed' : UInt64} {m'' : MempoolImpl}
      (ok' : addPendingTransaction codec crypto transaction time maxPayerRc m = .ok rcUsed' m'') :
      rcUsed' = rcUsed ∧ m'' = m' := by
    rw [ok] at ok'
    cases ok'
    exact ⟨rfl, rfl⟩
  obtain ⟨used, verdict, worth⟩ := verdicts head known
  have reports := reported_iff transaction time maxPayerRc verdict
  rw [← worth rfl] at reports
  constructor
  · intro atomic _ p looked'
    obtain ⟨q, found, reserved⟩ := atomic.reported _ _ ok
    rw [looked] at found looked'
    cases found
    cases looked'
    exact reports.mp reserved
  · intro headReports
    constructor
    case refused =>
      intro e m'' err
      rw [ok] at err
      contradiction
    case entered =>
      intro _ _ ok' p mem free
      obtain ⟨rfl, rfl⟩ := only ok'
      obtain ⟨used, verdict, -⟩ := verdicts p mem
      obtain ⟨joins, -⟩ := verdict.resolve_right fun passed => passed.1.not_free free
      exact (verdict.entered joins).1
    case others =>
      intro _ _ ok' p mem outside
      obtain ⟨rfl, rfl⟩ := only ok'
      by_cases pending : p ∈ pendingNodes m.db
      · obtain ⟨used, verdict, -⟩ := verdicts p pending
        rcases verdict with ⟨joins, -⟩ | ⟨-, same, -⟩
        · exact absurd ⟨pending, joins.free⟩ outside
        · exact same
      · exact unchanged p mem pending
    case received =>
      intro _ _ _
      obtain ⟨p, mem, joins⟩ := admitted.taken
      exact ⟨p, mem, joins.free⟩
    case reported =>
      intro _ _ ok'
      obtain ⟨rfl, rfl⟩ := only ok'
      exact ⟨head, looked, reports.mpr (headReports admitted head looked)⟩

/-- One pending node still has the nonce, but not the head's. -/
theorem addPendingTransaction_atomic_iff_of_competingBlocks :
    ∃ m, run .transparent marked .fifo passes (.create .transparent marked) competingBlocks = some m ∧
      AddsAtomically .transparent marked m { id := [2], payer := [7], nonce := [2], rcLimit := 10 } 0 100 := by
  have ran : (run .transparent marked .fifo passes (.create .transparent marked) competingBlocks).any
      (fun m : MempoolImpl => decide (∀ p ∈ (value (relevantNode marked (some (m.db.heap.id m.db.head)) m)).join,
        (createAccountNonceKey .transparent { id := [2], payer := [7], nonce := [2], rcLimit := 10 }).map
          (View.object Codec.transparent.keys (m.db.heap.find p) accountNonce) = some none)) = true := by
    decide +kernel
  obtain ⟨m, ran, free⟩ := exists_of_any ran
  have book : Bookkeeping marked m := by
    refine bookkeeping_of_reachable cons_injective ?_ (reachable_of_run passes_sound (.start rfl) ran)
    intro id same
    exact absurd (cons.inj same).1 (by decide)
  refine ⟨m, ran, (addPendingTransaction_atomic_iff _ _ _ book).mpr fun _ p looked conflicts => ?_⟩
  rw [looked] at free
  exact absurd (Option.map_eq_some_iff.mp (free p rfl)) conflicts.not_free

/-- What a call reports, and what the head's pending node reserves afterwards. -/
def reportedAndReserved (codec : Codec) (crypto : Crypto) (m : MempoolImpl) (transaction : PendingTransaction)
    (time : ℤ) (maxPayerRc : UInt64) : Option (UInt64 × UInt64) :=
  match addPendingTransaction codec crypto transaction time maxPayerRc m,
      relevantNode crypto (some (m.db.heap.id m.db.head)) m with
  | .ok rcUsed m', .ok (some p) _ =>
    match getReservedAccountRcFromNode codec p transaction.payer m'.db.heap with
    | .ok reserved _ => some (rcUsed, reserved)
    | .error _ _ => none
  | _, _ => none

theorem AddsAtomically.reports_reserved (atomic : AddsAtomically codec crypto m transaction time maxPayerRc)
    {rcUsed reserved : UInt64}
    (measured : reportedAndReserved codec crypto m transaction time maxPayerRc = some (rcUsed, reserved)) :
    rcUsed = reserved := by
  rw [reportedAndReserved] at measured
  cases returns : addPendingTransaction codec crypto transaction time maxPayerRc m with
  | error e m' =>
    rw [returns] at measured
    cases measured
  | ok used m' =>
    obtain ⟨p, looked, reserves⟩ := atomic.reported _ _ returns
    rw [returns, looked] at measured
    dsimp only at measured
    rw [reserves] at measured
    cases measured
    rfl

/-- A transaction is pending on two forks when a third one includes it. -/
def includedElsewhere : List MempoolOp := [
  .addPendingTransaction { id := [1], payer := [7], nonce := [1], rcLimit := 10 } 0 100,
  .handleBlock { id := [1], header := { previous := .zero } },
  .handleBlock { id := [2], header := { previous := .zero }, transactions := [{ id := [1] }] }]

/-- A second transaction with the nonce of the first one enters the third fork alone. The head's pending
node reserves RC for the first one, and the call reports none. -/
theorem addPendingTransaction_reports_nothing :
    ∃ m, run .transparent marked .fifo passes (.create .transparent marked) includedElsewhere = some m ∧
      ¬ AddsAtomically .transparent marked m { id := [2], payer := [7], nonce := [1], rcLimit := 20 } 0 100 := by
  have ran : (run .transparent marked .fifo passes (.create .transparent marked) includedElsewhere).any
      (fun m => reportedAndReserved .transparent marked m
        { id := [2], payer := [7], nonce := [1], rcLimit := 20 } 0 100 = some (0, 10)) = true := by
    decide +kernel
  obtain ⟨m, ran, measured⟩ := exists_of_any ran
  refine ⟨m, ran, fun atomic => ?_⟩
  exact absurd (atomic.reports_reserved _ _ _ measured) (by decide)

end Forks

end Teleno.Mempool
