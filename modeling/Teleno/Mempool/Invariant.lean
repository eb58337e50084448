import Teleno.Mempool.Effects

/-! # The ledger invariant of the mempool

Every node of the mempool's database keeps a ledger of pending records. Blocks and pending nodes
inherit it from the node they are cloned or created from, transactions are entered on all forks
through anonymous nodes and removed on single nodes. The one call that can break it is the commit of
a block that is not an ancestor of the head: it throws after the old root has lost its objects.
-/

namespace Teleno.Mempool

open Library StateDb Exec List Database

variable {codec : Codec} {crypto : Crypto} {algo : ForkResolution}

/-- The view is that of some ledger. -/
def HasLedger (codec : Codec) (view : View) : Prop := ∃ entries, Ledger codec view entries

/-- Every node keeps a ledger. -/
abbrev Sound (codec : Codec) (m : MempoolImpl) : Prop := m.db.EveryView (HasLedger codec)

section Add

/-- An anonymous node above a pending node, with what the attempt on it has left there. -/
structure Staged (codec : Codec) (record : PendingTransactionRecord) (maxPayerRc : UInt64) (start h : Heap)
    (attempt : Attempt) : Prop where
  linked : (h.cell attempt.anonymous).parent = some attempt.node
  new : start.size ≤ attempt.anonymous
  bound : attempt.anonymous < h.size
  verdict : Verdict codec record maxPayerRc (start.find attempt.node) (h.find attempt.anonymous) attempt.rcUsed

/-- Why an attempt ends the loop: the node refuses the transaction, unless there is no head to compare with. -/
structure Refused (codec : Codec) (record : PendingTransactionRecord) (maxPayerRc : UInt64) (tmpHead : Option ℕ)
    (view : View) (e : MempoolError) : Prop where
  neither : tmpHead.isSome → ¬ Joins codec view record.transaction maxPayerRc ∧
    ¬ Conflicts codec view record.transaction maxPayerRc
  duplicate : e = .insertionFailure →
    (View.object codec.keys view Space.transactionIndex record.transaction.id).isSome

variable {record : PendingTransactionRecord} {maxPayerRc : UInt64} {size node : ℕ} {start h h' : Heap}
  {attempt : Attempt} {db : Database}

theorem Staged.grows (staged : Staged codec record maxPayerRc start h attempt) (grows : h.Grows h') :
    Staged codec record maxPayerRc start h' attempt where
  linked := by rw [grows.cell_eq _ staged.bound]; exact staged.linked
  new := staged.new
  bound := staged.bound.trans_le grows.toExtends.size_le
  verdict := by rw [grows.find_eq staged.bound]; exact staged.verdict

/-- A new anonymous node takes writes. -/
theorem makeChild_writable (bound : node < h.size) :
    Writable (h.makeChild node [] {}) h.size ∧ ((h.makeChild node [] {}).cell h.size).parent = some node ∧
      (h.makeChild node [] {}).size = h.size + 1 := by
  have linked : ∀ j, ((h.cell node).makeChild node [] {}).parent = some j → j < h.size := by
    rintro j ⟨⟩
    exact bound
  have child : (h.makeChild node [] {}).cell h.size = (h.cell node).makeChild node [] {} := by
    rw [Heap.makeChild, h.cell_push linked, if_pos rfl]
  refine ⟨⟨?_, ?_⟩, ?_, h.size_push linked⟩ <;> rw [child] <;> rfl

/-- A node either gets an anonymous node with a verdict, or ends the loop. -/
theorem addOnNode_staged (codec : Codec) (record : PendingTransactionRecord) (maxPayerRc : UInt64) (tmpHead : Option ℕ)
    (bound : node < h.size) :
    (∃ attempt h', addOnNode codec record maxPayerRc tmpHead node h = .ok attempt h' ∧
      attempt.node = node ∧ Staged codec record maxPayerRc h h' attempt) ∨
    ∃ e h', addOnNode codec record maxPayerRc tmpHead node h = .error e h' ∧
      Refused codec record maxPayerRc tmpHead (h.find node) e := by
  obtain ⟨writable, linked, size⟩ := makeChild_writable bound
  have created : createAnonymousNode node h = .ok h.size (h.makeChild node [] {}) := rfl
  have shown := h.find_makeChild bound [] {}
  rw [addOnNode, bind_of_ok created]
  by_cases joins : Joins codec (h.find node) record.transaction maxPayerRc
  · rw [← shown] at joins
    obtain ⟨rcUsed, h', added, rewrites, verdict⟩ := addPendingTransactionToNode_of_joins writable joins
    rw [shown] at verdict
    cases tmpHead with
    | none =>
      refine .inr ⟨.nullNode, h', tryCatch_of_error (e := MempoolError.nullNode) ?_, by rintro ⟨⟩, by rintro ⟨⟩⟩
      exact bind_of_ok added
    | some head =>
      refine .inl ⟨⟨node, h.size, some rcUsed⟩, h', ?_, rfl, ?_, le_rfl, ?_, verdict⟩
      · exact tryCatch_of_ok (bind_of_ok added)
      · exact rewrites.frame.parent_eq.trans linked
      · rw [rewrites.size_eq, size]
        exact Nat.lt_succ_self _
  · rw [← shown] at joins
    obtain ⟨e, err, blames, duplicate⟩ := addPendingTransactionToNode_of_not_joins writable joins
    rw [shown] at joins blames duplicate
    rw [tryCatch_of_error (bind_of_error err)]
    split_ifs with conflict
    · refine .inl ⟨⟨node, h.size, none⟩, _, rfl, rfl, linked, le_rfl, ?_, .inr ⟨blames.mp conflict, shown, rfl⟩⟩
      rw [size]
      exact Nat.lt_succ_self _
    · exact .inr ⟨e, _, rfl, fun _ => ⟨joins, fun conflicts => conflict (blames.mpr conflicts)⟩, duplicate⟩

/-- The loop over the pending nodes stages the transaction on all of them, or one of them ends it. -/
theorem addOnNodes_staged (codec : Codec) (record : PendingTransactionRecord) (maxPayerRc : UInt64) (tmpHead : Option ℕ)
    {nodes : List ℕ} (bound : ∀ node ∈ nodes, node < h.size) :
    (∃ attempts h', addOnNodes codec record maxPayerRc tmpHead nodes h = .ok attempts h' ∧
      attempts.map Attempt.node = nodes ∧
      ∀ attempt ∈ attempts, Staged codec record maxPayerRc h h' attempt) ∨
    ∃ e h', addOnNodes codec record maxPayerRc tmpHead nodes h = .error e h' ∧
      ∃ node ∈ nodes, Refused codec record maxPayerRc tmpHead (h.find node) e := by
  induction nodes generalizing h with
  | nil => exact .inl ⟨[], h, rfl, rfl, fun attempt mem => by contradiction⟩
  | cons node nodes ih =>
    rw [addOnNodes]
    have grows := grows_addOnNode codec record maxPayerRc tmpHead node h
    have below (other : ℕ) (mem : other ∈ nodes) := bound other (mem_cons_of_mem _ mem)
    rcases addOnNode_staged codec record maxPayerRc tmpHead (bound node mem_cons_self) with
      ⟨attempt, h₁, first, same, staged⟩ | ⟨e, h₁, err, refused⟩
    swap
    · exact .inr ⟨e, h₁, bind_of_error err, node, mem_cons_self, refused⟩
    rw [first, final] at grows
    have shows (other : ℕ) (mem : other ∈ nodes) : h₁.find other = h.find other := grows.find_eq (below other mem)
    have grows' := grows_addOnNodes codec record maxPayerRc tmpHead nodes h₁
    rw [bind_of_ok first]
    rcases ih (fun other mem => (below other mem).trans_le grows.toExtends.size_le) with
      ⟨attempts, h₂, rest, nodes', later⟩ | ⟨e, h₂, err, other, mem, refused⟩
    · rw [rest, final] at grows'
      refine .inl ⟨attempt :: attempts, h₂, bind_of_ok rest, by rw [map_cons, same, nodes'], ?_⟩
      intro other mem
      rcases mem_cons.mp mem with rfl | inside
      · exact staged.grows grows'
      · obtain ⟨linked, new, limit, verdict⟩ := later other inside
        rw [shows other.node (nodes' ▸ mem_map_of_mem inside)] at verdict
        exact ⟨linked, grows.toExtends.size_le.trans new, limit, verdict⟩
    · rw [shows other mem] at refused
      exact .inr ⟨e, h₂, bind_of_error err, other, mem_cons_of_mem _ mem, refused⟩

/-- A commit moves what the anonymous node shows to its parent. -/
theorem commitAnonymousNode_eq (wf : db.WellFormed) (known : attempt.node ∈ db.index)
    (writable : (db.heap.cell attempt.node).finalized = false)
    (linked : (db.heap.cell attempt.anonymous).parent = some attempt.node) :
    ∃ h' heap, commitAnonymousNode attempt db.heap = .ok () heap ∧ db.heap.Rewrites attempt.node h' ∧
      h'.Grows heap ∧ h'.find attempt.node = db.heap.find attempt.anonymous := by
  obtain ⟨shown, rewrites⟩ := db.heap.find_squash linked (wf.tree.held _ known)
  refine ⟨_, _, ?_, rewrites, .makeChild (db.heap.squash attempt.anonymous) attempt.anonymous [] {}, shown⟩
  rw [commitAnonymousNode, writable]
  rfl

/-- A commit below another node does not touch an anonymous node. -/
theorem anonymous_of_commit {anonymous other : ℕ} {heap : Heap} (wf : db.WellFormed) (below : ∀ p ∈ db.index, p < size)
    (known : other ∈ db.index) (writable : (db.heap.cell other).finalized = false) (known' : node ∈ db.index)
    (distinct : node ≠ other) (linked : (db.heap.cell anonymous).parent = some node) (new : size ≤ anonymous)
    (bound : anonymous < db.heap.size) (rewrites : db.heap.Rewrites other h') (grows : h'.Grows heap) :
    (heap.cell anonymous).parent = some node ∧ anonymous < heap.size ∧
      heap.find anonymous = db.heap.find anonymous := by
  have apart : anonymous ≠ other := by
    have left := below _ known
    omega
  have outside : other ∉ db.heap.path anonymous := by
    rw [db.heap.path_of_some linked, mem_cons, not_or]
    exact ⟨apart.symm, wf.not_mem_path known' writable distinct⟩
  have bound' : anonymous < h'.size := by
    rw [rewrites.size_eq]
    exact bound
  refine ⟨?_, bound'.trans_le grows.toExtends.size_le, ?_⟩
  · rw [grows.cell_eq _ bound', rewrites.others _ apart]
    exact linked
  · rw [grows.find_eq bound', rewrites.find_of_not_mem outside]

/-- The attempts are committed up to the first mutex that is missing: their nodes show what was staged, and the
other nodes show what they did. -/
theorem commitAttempts_cases {m : MempoolImpl} {attempts : List Attempt} (wf : m.db.WellFormed)
    (below : ∀ p ∈ m.db.index, p < start.size) (distinct : (attempts.map Attempt.node).Nodup)
    (known : ∀ attempt ∈ attempts, attempt.node ∈ m.db.index ∧
      (m.db.heap.cell attempt.node).finalized = false)
    (staged : ∀ attempt ∈ attempts, Staged codec record maxPayerRc start m.db.heap attempt) :
    ∃ committed heap, committed ⊆ attempts ∧ final (commitAttempts attempts m) = m.withHeap heap ∧
      m.db.heap.Extends heap ∧
      (∀ attempt ∈ committed, heap.find attempt.node = m.db.heap.find attempt.anonymous) ∧
      (∀ p ∈ m.db.index, p ∉ committed.map Attempt.node → heap.find p = m.db.heap.find p) ∧
      ((∀ attempt ∈ attempts, m.db.heap.id attempt.node ∈ m.mutexes) →
        committed = attempts ∧ commitAttempts attempts m = .ok () (m.withHeap heap)) := by
  induction attempts generalizing m with
  | nil =>
    exact ⟨[], m.db.heap, Subset.refl _, rfl, .refl _, fun attempt mem => by contradiction, fun _ _ _ => rfl,
      fun _ => ⟨rfl, rfl⟩⟩
  | cons attempt attempts ih =>
    obtain ⟨mem, writable⟩ := known attempt mem_cons_self
    rw [commitAttempts, get_bind, require_bind]
    by_cases guarded : m.db.heap.id attempt.node ∈ m.mutexes
    swap
    · rw [if_neg (mt Std.ExtTreeSet.mem_iff_contains.mpr guarded)]
      exact ⟨[], m.db.heap, nil_subset _, rfl, .refl _, fun attempt mem => by contradiction, fun _ _ _ => rfl,
        fun all => absurd (all attempt mem_cons_self) guarded⟩
    obtain ⟨h', heap, commits, rewrites, grows, shown⟩ :=
      commitAnonymousNode_eq wf mem writable (staged attempt mem_cons_self).linked
    have extended : m.db.heap.Extends heap := rewrites.toExtends.trans grows.toExtends
    have size : h'.size = m.db.heap.size := rewrites.size_eq
    rw [map_cons, nodup_cons] at distinct
    have kept (other : Attempt) (inside : other ∈ attempts) :=
      anonymous_of_commit wf below mem writable (known other (mem_cons_of_mem _ inside)).1
        (fun same => distinct.1 (same ▸ mem_map_of_mem inside))
        (staged other (mem_cons_of_mem _ inside)).linked (staged other (mem_cons_of_mem _ inside)).new
        (staged other (mem_cons_of_mem _ inside)).bound rewrites grows
    have same (p : ℕ) (listed : p ∈ m.db.index) := extended.frame p (wf.tree.bound p listed)
    obtain ⟨committed, heap', part, ends, extended', found, unchanged, all⟩ := ih (m := m.withHeap heap)
      (wf.of_extends extended) below distinct.2
      (by
        intro other inside
        obtain ⟨listed, open'⟩ := known other (mem_cons_of_mem _ inside)
        exact ⟨listed, (same _ listed).finalized_eq.trans open'⟩)
      (by
        intro other inside
        have before := staged other (mem_cons_of_mem _ inside)
        obtain ⟨linked, bound, shown⟩ := kept other inside
        refine ⟨linked, before.new, bound, ?_⟩
        change Verdict _ _ _ _ (heap.find _) _
        rw [shown]
        exact before.verdict)
    have outside : attempt.node ∉ committed.map Attempt.node :=
      fun inside => distinct.1 (map_subset Attempt.node part inside)
    rw [if_pos (Std.ExtTreeSet.mem_iff_contains.mp guarded), bind_of_ok (onNodes_of_ok commits)]
    refine ⟨attempt :: committed, heap', cons_subset_cons _ part, ends, extended.trans extended', ?_, ?_, ?_⟩
    · intro other inside
      rcases mem_cons.mp inside with rfl | inside
      · rw [unchanged _ mem outside]
        change heap.find _ = _
        rw [grows.find_eq (size ▸ wf.tree.bound _ mem)]
        exact shown
      · exact (found other inside).trans (kept other (part inside)).2.2
    · intro p listed apart
      rw [map_cons, mem_cons, not_or] at apart
      refine (unchanged p listed apart.2).trans ?_
      change heap.find p = _
      rw [grows.find_eq (size ▸ wf.tree.bound p listed)]
      exact rewrites.find_of_not_mem (wf.not_mem_path listed writable apart.1)
    · intro mutexes
      obtain ⟨rfl, ok⟩ := all (by
        intro other inside
        have listed := (known other (mem_cons_of_mem _ inside)).1
        have named : heap.id other.node = m.db.heap.id other.node := (same _ listed).id_eq
        change heap.id other.node ∈ m.mutexes
        rw [named]
        exact mutexes other (mem_cons_of_mem _ inside))
      exact ⟨rfl, ok⟩

end Add

section Calls

variable {m : MempoolImpl}

variable {db : Database} {p : ℕ} {α : Type}

theorem mem_pendingNodes : p ∈ pendingNodes db ↔ p ∈ db.index ∧ (db.heap.cell p).finalized = false := by
  rw [pendingNodes, mem_filter, getAllNodes, mem_insertionSort, Bool.not_eq_true']

theorem nodup_pendingNodes (wf : db.WellFormed) : (pendingNodes db).Nodup :=
  (((perm_insertionSort _ db.index).nodup_iff).mpr wf.tree.nodup).filter _

theorem addPendingTransaction_sound (sound : Sound codec m) {transaction : PendingTransaction}
    (positive : 0 < transaction.rcLimit) (left : ∀ p ∈ m.db.index, (m.db.heap.cell p).finalized = false →
      SeqNumLeft codec (m.db.heap.find p)) (time : ℤ) (maxPayerRc : UInt64) :
    Sound codec (final (addPendingTransaction codec crypto transaction time maxPayerRc m)) := by
  rw [addPendingTransaction, get_bind]
  rcases relevantNode_cases crypto (some (m.db.heap.id m.db.head)) m with ⟨tmpHead, ok, -⟩ | err
  swap
  · rw [bind_of_error err]
    exact sound
  rw [bind_of_ok ok]
  dsimp only
  have known (p : ℕ) (mem : p ∈ pendingNodes m.db) := mem_pendingNodes.mp mem
  have grows := grows_addOnNodes codec ⟨transaction, UInt64.ofInt (time.tdiv 1000000)⟩ maxPayerRc tmpHead
    (pendingNodes m.db) m.db.heap
  rcases addOnNodes_staged codec ⟨transaction, UInt64.ofInt (time.tdiv 1000000)⟩ maxPayerRc tmpHead
    fun p mem => sound.wf.tree.bound p (known p mem).1 with
    ⟨attempts, heap, tried, nodes, staged⟩ | ⟨e, heap, tried, -⟩
  swap
  · rw [tried] at grows
    rw [bind_of_error (onNodes_of_error tried)]
    exact sound.grows grows
  rw [tried, final] at grows
  have sound' : Sound codec (m.withHeap heap) := sound.grows grows
  have listed (attempt : Attempt) (mem : attempt ∈ attempts) := known attempt.node (nodes ▸ mem_map_of_mem mem)
  rw [bind_of_ok (onNodes_of_ok tried)]
  refine keeps_bind (Sound codec) ?_ ?_
  · rw [final_require]
    exact sound'
  intro _ m' holds _
  obtain ⟨-, rfl⟩ := require_eq_ok_iff.mp holds
  refine keeps_bind (Sound codec) ?_ (fun _ _ _ kept => kept)
  obtain ⟨committed, heap', part, ends, extended, found, unchanged, -⟩ := commitAttempts_cases sound'.wf
    sound.wf.tree.bound (nodes ▸ nodup_pendingNodes sound.wf) (by
      intro attempt mem
      refine ⟨(listed attempt mem).1, ?_⟩
      change (heap.cell attempt.node).finalized = false
      rw [grows.cell_eq _ (sound.wf.tree.bound _ (listed attempt mem).1)]
      exact (listed attempt mem).2) staged
  rw [ends]
  refine ⟨sound'.wf.of_extends extended, fun p mem => ?_⟩
  change HasLedger codec (heap'.find p)
  by_cases moved : p ∈ committed.map Attempt.node
  · obtain ⟨attempt, inside, rfl⟩ := mem_map.mp moved
    obtain ⟨pending, writable⟩ := listed attempt (part inside)
    obtain ⟨entries, ledger⟩ := sound.views _ pending
    rw [found attempt inside]
    exact (staged attempt (part inside)).verdict.ledger ledger positive (left _ pending writable)
  · rw [unchanged p mem moved]
    exact sound'.views p mem

/-- Work on one node that keeps its ledger, and leaves it alone once it is finalized. -/
def Tame {α : Type} (codec : Codec) (p : ℕ) (program : NodeM α) : Prop :=
  ∀ h : Heap, (h.cell p).backend.isSome → HasLedger codec (h.find p) →
    h.Rewrites p (final (program h)) ∧ HasLedger codec ((final (program h)).find p) ∧
      ((h.cell p).finalized = true → final (program h) = h)

/-- It is enough to look at nodes that take writes. -/
theorem Tame.of_writable {program : NodeM α} (writes : Writes p program)
    (works : ∀ h entries, Writable h p → Ledger codec (h.find p) entries →
      HasLedger codec ((final (program h)).find p)) : Tame codec p program := by
  intro h held hasLedger
  refine ⟨(writes h).rewrites, ?_, (writes h).idle⟩
  cases done : (h.cell p).finalized with
  | true =>
    rw [(writes h).idle done]
    exact hasLedger
  | false =>
    obtain ⟨entries, ledger⟩ := hasLedger
    exact works h entries ⟨done, held⟩ ledger

theorem tame_removePendingTransactionsOnNode (p : ℕ) (ids : List Bytes) :
    Tame codec p (removePendingTransactionsOnNode codec p ids) := by
  refine .of_writable (writes_removePendingTransactionsOnNode ids) fun h entries writable ledger => ?_
  obtain ⟨count, h', ok, -, ledger'⟩ := removePendingTransactionsOnNode_eq writable ledger ids
  rw [ok]
  exact ⟨_, ledger'⟩

theorem tame_pruneOnNode (p : ℕ) (expiration now : ℤ) : Tame codec p
    (fun h => pruneOnNode codec p expiration now ((h.visibleKeys p).length + 1) h) := by
  refine .of_writable (fun h => writes_pruneOnNode expiration now _ h) fun h entries writable ledger => ?_
  obtain ⟨count, h', rest, ok, -, ledger'⟩ := pruneOnNode_eq expiration now writable ledger
    (Nat.lt_succ_of_le ledger.length_le)
  rw [ok]
  exact ⟨_, ledger'⟩

theorem onNodes_sound (sound : Sound codec m) (known : p ∈ m.db.index) {program : NodeM α}
    (tame : Tame codec p program) : Sound codec (final (onNodes program m)) := by
  obtain ⟨rewrites, kept, idle⟩ := tame m.db.heap (sound.wf.tree.held p known) (sound.views p known)
  rw [final_onNodes]
  cases done : (m.db.heap.cell p).finalized with
  | true =>
    rw [idle done]
    exact sound
  | false => exact sound.rewrites done rewrites kept

theorem onForks_sound {visit : ℕ → NodeM ℕ} (tame : ∀ p, Tame codec p (visit p)) (sound : Sound codec m)
    (blocks : List ℕ) : Sound codec (final (onForks crypto visit blocks m)) := by
  induction blocks generalizing m with
  | nil => exact sound
  | cons block blocks ih =>
    rw [onForks, get_bind]
    rcases relevantNode_cases crypto (some (m.db.heap.id block)) m with ⟨found, ok, inside⟩ | err
    · rw [bind_of_ok ok]
      cases found with
      | none => exact sound
      | some node =>
        rw [bind_of_ok (dereference_some rfl m)]
        refine keeps_bind (Sound codec) (onNodes_sound sound (inside node rfl) (tame node)) ?_
        intro count m' _ sound'
        exact keeps_bind (Sound codec) (ih sound') (fun _ _ _ kept => kept)
    · rw [bind_of_error err]
      exact sound

/-- Any call on the database that keeps the ledgers. -/
theorem onDatabase_sound {call : Database → Except StateDbError α × Database}
    (kept : ∀ result db', call m.db = (result, db') → db'.EveryView (HasLedger codec)) :
    Sound codec (final (onDatabase call m)) := by
  rcases onDatabase_eq call m with ⟨a, db, ran, outcome⟩ | ⟨e, db, ran, outcome⟩
  · rw [outcome]
    exact kept _ _ ran
  · rw [outcome]
    exact kept _ _ ran

/-- The clone is a node of the database. -/
theorem mem_of_cloneNode {db' : Database} {nodeId newId : Multihash} {header : BlockHeader}
    (ran : db.cloneNode nodeId newId header = (.ok (some p), db')) : p ∈ db'.index := by
  rcases db.cloneNode_cases nodeId newId header with same | ⟨same, -⟩ | ⟨node, -, -, -, made⟩
  · cases same.symm.trans ran
  · cases same.symm.trans ran
  · cases made.symm.trans ran
    exact mem_append_right _ (mem_singleton_self _)

theorem cloneBlock_sound (sound : Sound codec m) (block : Chain.Block) :
    Sound codec (final (cloneBlock codec crypto block m)) := by
  rw [cloneBlock, get_bind]
  cases m.db.getNode (m.basisId crypto block) with
  | none => exact sound
  | some basis =>
    refine keeps_bind (Sound codec) (onDatabase_sound ?_) ?_
    · intro result db' ran
      have cloned := sound.cloneNode (m.basisId crypto block) block.id block.header
      rw [ran] at cloned
      exact cloned
    · intro node m' cloned sound'
      cases block.transactions.map Chain.Transaction.id with
      | nil => exact sound'
      | cons id ids =>
        cases node with
        | none => exact sound'
        | some p =>
          dsimp only
          rw [bind_of_ok (dereference_some rfl m')]
          have known : p ∈ m'.db.index := by
            rcases onDatabase_eq (·.cloneNode (m.basisId crypto block) block.id block.header) m with
              ⟨a, db, ran, outcome⟩ | ⟨e, db, ran, outcome⟩
            · rw [cloned] at outcome
              cases outcome
              exact mem_of_cloneNode ran
            · rw [cloned] at outcome
              cases outcome
          exact keeps_bind (Sound codec)
            (onNodes_sound sound' known (tame_removePendingTransactionsOnNode p _)) (fun _ _ _ kept => kept)

theorem handleBlock_sound (sound : Sound codec m) (block : Chain.Block) :
    Sound codec (final (handleBlock codec crypto algo block m)) := by
  rw [handleBlock]
  refine keeps_bind (Sound codec) (keeps_tryCatch (Sound codec) (cloneBlock_sound sound block) ?_) ?_
  · intro e m' _ sound'
    by_cases crashed : e = .nullNode
    · rw [if_pos crashed]
      exact sound'
    · rw [if_neg crashed]
      refine keeps_bind (Sound codec) (onDatabase_sound ?_) (fun _ _ _ kept => kept)
      exact fun result db' ran => sound'.discardNode ran
  · intro cloned m' _ sound'
    cases cloned with
    | false => exact sound'
    | true =>
      have finalized : Sound codec (final (finalizeBlock algo block.id m')) :=
        keeps_tryCatch (Sound codec)
          (onDatabase_sound fun result db' ran => sound'.finalizeNode ran) (fun _ _ _ kept => kept)
      refine keeps_bind (Sound codec) finalized ?_
      intro _ m'' _ sound''
      refine keeps_bind (Sound codec) ?_ (fun _ _ _ kept => kept)
      exact sound''.createWritableNode block.id (tmpId crypto block.id) {}

/-- Committing an ancestor of the head keeps what the remaining nodes show. -/
theorem handleIrreversibility_sound (sound : Sound codec m) {id : Multihash}
    (settled : ∀ node ∈ m.db.getNode id, node ∈ m.db.heap.path m.db.head) :
    Sound codec (final (handleIrreversibility crypto id m)) := by
  rw [handleIrreversibility, get_bind]
  cases found : m.db.getNode id with
  | none => exact sound
  | some node =>
    obtain ⟨db, commits⟩ := sound.wf.commitNode_ok crypto found (settled node found)
    refine keeps_bind (Sound codec) (onDatabase_sound ?_) (fun _ _ _ kept => kept)
    intro result db' ran
    rw [commits] at ran
    cases ran
    exact sound.commitNode commits

/-- A new mempool shows nothing. -/
theorem create_sound (codec : Codec) (crypto : Crypto) : Sound codec (.create codec crypto) := by
  have opened : (openLockless codec.keys {} []).EveryView (HasLedger codec) := by
    refine ⟨.openLockless codec.keys (.of_none rfl) [], ?_⟩
    intro p mem
    have empty : ∀ key, (openLockless codec.keys {} []).heap.find p key = none := by
      intro key
      obtain rfl := mem_singleton.mp mem
      have cell : (openLockless codec.keys {} []).heap.cell 0 =
          { openDelta {} with finalized := true } := by
        simp only [openLockless, foldl_nil, ite_self]
        exact Heap.cell_empty_push rfl
      rw [Heap.find_eq, cell]
      rfl
    exact ⟨[], .nil empty⟩
  exact opened.createWritableNode _ _ _

end Calls

/-- The steps that keep the ledgers: no sequence number is left over, and only ancestors of the head
become irreversible. -/
def Settled (codec : Codec) (m : MempoolImpl) : MempoolOp → Prop
  | .addPendingTransaction _ _ _ => ∀ p ∈ m.db.index, (m.db.heap.cell p).finalized = false →
    SeqNumLeft codec (m.db.heap.find p)
  | .handleIrreversibility id => ∀ node ∈ m.db.getNode id, node ∈ m.db.heap.path m.db.head
  | _ => True

instance (codec : Codec) (m : MempoolImpl) : (op : MempoolOp) → Decidable (Settled codec m op)
  | .addPendingTransaction _ _ _ => inferInstanceAs (Decidable (∀ p ∈ m.db.index, _ → _))
  | .handleIrreversibility id => decidable_of_iff
    ((m.db.getNode id).all (fun node => decide (node ∈ m.db.heap.path m.db.head)) = true) (by
      rw [Settled, Option.all_eq_true]
      exact forall₂_congr fun node _ => decide_eq_true_iff)
  | .removePendingTransactions _ => .isTrue trivial
  | .prune _ _ => .isTrue trivial
  | .handleBlock _ => .isTrue trivial

theorem apply_sound {m : MempoolImpl} {op : MempoolOp} (sound : Sound codec m) (valid : op.Valid)
    (settled : Settled codec m op) : Sound codec (final (apply codec crypto algo op m)) := by
  cases op with
  | addPendingTransaction transaction time maxPayerRc =>
    rw [apply, final_ignore]
    exact addPendingTransaction_sound sound valid settled time maxPayerRc
  | removePendingTransactions ids =>
    rw [apply, final_ignore]
    exact onForks_sound (fun p => tame_removePendingTransactionsOnNode p ids) sound _
  | prune expiration now =>
    rw [apply, final_ignore]
    exact onForks_sound (fun p => tame_pruneOnNode p expiration now) sound _
  | handleBlock block =>
    rw [apply, final_ignore]
    exact handleBlock_sound sound block
  | handleIrreversibility id => exact handleIrreversibility_sound sound settled

theorem sound_of_reachable {m : MempoolImpl} (reached : (mempoolMachine codec crypto algo).Reachable
    (fun m op => op.Valid ∧ Settled codec m op) m) : Sound codec m := by
  refine reached.invariant ?_ ?_
  · rintro m rfl
    exact create_sound codec crypto
  · rintro m op m' sound ⟨valid, settled⟩ ⟨rfl, -⟩
    exact apply_sound sound valid settled

/-- In every state that a new mempool reaches by any calls, also by calls that throw, the objects of
every pending node are those of one list of pending records. -/
theorem ledger_of_reachable (codec : Codec) (crypto : Crypto) (algo : ForkResolution) (m : MempoolImpl)
    (reached : (mempoolMachine codec crypto algo).Reachable (fun m op => op.Valid ∧ Settled codec m op) m) :
    ∀ p ∈ m.db.index, (m.db.heap.cell p).finalized = false →
      ∃ entries, Ledger codec (m.db.heap.find p) entries :=
  fun p known _ => (sound_of_reachable reached).views p known

/-- A transaction that stays pending through two competing blocks, and a second one that is removed. -/
def competingBlocks : List MempoolOp := [
  .addPendingTransaction { id := [1], payer := [7], nonce := [1], rcLimit := 10 } 0 100,
  .handleBlock { id := [1], header := { previous := .zero } }, .handleIrreversibility [1],
  .handleBlock { id := [2], header := { previous := [1] } },
  .handleBlock { id := [3], header := { previous := [1] } },
  .addPendingTransaction { id := [2], payer := [7], nonce := [2], rcLimit := 10 } 0 100,
  .removePendingTransactions [[2]]]

theorem ledger_of_reachable_of_competingBlocks :
    ∃ m, run .transparent marked .fifo (fun m op => op.Valid ∧ Settled .transparent m op)
        (.create .transparent marked) competingBlocks = some m ∧ m.db.index.length = 6 ∧
      ∀ p ∈ m.db.index, (m.db.heap.cell p).finalized = false →
        ∃ entries, Ledger .transparent (m.db.heap.find p) entries := by
  have ran : (run .transparent marked .fifo (fun m op => op.Valid ∧ Settled .transparent m op)
      (.create .transparent marked) competingBlocks).any (fun m => m.db.index.length = 6) = true := by
    decide +kernel
  obtain ⟨m, ran, size⟩ := exists_of_any ran
  refine ⟨m, ran, size, ledger_of_reachable .transparent marked .fifo m ?_⟩
  exact reachable_of_run (fun m op passed => of_decide_eq_true passed) (.start rfl) ran

/-- A resource record without a pending record belongs to no ledger. -/
theorem not_ledger_of_orphan {h : Heap} {p : ℕ} {payer : Bytes}
    (orphan : (View.object codec.keys (h.find p) Space.addressResources payer).isSome)
    (nothing : ∀ key ∈ h.visibleKeys p,
      (codec.keys.parse key).map DatabaseKey.space ≠ some Space.pendingTransaction) :
    ¬ ∃ entries, Ledger codec (h.find p) entries := by
  rintro ⟨entries, ledger⟩
  obtain ⟨entry, mem, -⟩ := (ledger.payers payer).mp orphan
  have stored := (ledger.pending (uint64Bytes entry.seq) _).mpr ⟨entry, mem, rfl, rfl⟩
  refine nothing (codec.keys.serialize ⟨Space.pendingTransaction, uint64Bytes entry.seq⟩) ?_ ?_
  · rw [h.mem_visibleKeys]
    exact Option.isSome_iff_exists.mpr ⟨_, stored⟩
  · rw [codec.keys.parse_serialize]
    rfl

/-- When the block that is not the head becomes irreversible, the call throws, and the pending node of
the head keeps a reservation for a transaction it no longer has. -/
theorem handleIrreversibility_loses_records :
    ∃ m, (mempoolMachine .transparent marked .fifo).Reachable (fun _ op => op.Valid) m ∧
      ∃ p ∈ m.db.index, (m.db.heap.cell p).finalized = false ∧
        ¬ ∃ entries, Ledger .transparent (m.db.heap.find p) entries := by
  have ran : (run .transparent marked .fifo (fun _ op => op.Valid) (.create .transparent marked)
      (competingBlocks ++ [.handleIrreversibility [3]])).any (fun m => 7 ∈ m.db.index ∧
        (m.db.heap.cell 7).finalized = false ∧
        (View.object KeyCodec.transparent (m.db.heap.find 7) Space.addressResources [7]).isSome ∧
        ∀ key ∈ m.db.heap.visibleKeys 7,
          (KeyCodec.transparent.parse key).map DatabaseKey.space ≠ some Space.pendingTransaction) = true := by
    decide +kernel
  obtain ⟨m, reached, known, pending, orphan, nothing⟩ := exists_run (fun _ _ => of_decide_eq_true) _ ran
  exact ⟨m, reached, 7, known, pending, not_ledger_of_orphan orphan nothing⟩

end Teleno.Mempool
