import Teleno.Mempool.Invariant

/-! # Blocks, their pending nodes and the mutexes

Every block of the mempool's database has one pending node, every pending node belongs to a block, and
the mutexes are those of the pending nodes. Calls on pending transactions do not touch this pairing, a
new block comes with its pending node, and a commit keeps or removes both together.
-/

namespace Teleno.Mempool

open Library StateDb Exec Database List Std.ExtTreeSet

variable {codec : Codec} {crypto : Crypto} {algo : ForkResolution}

section Paired

/-- What the bookkeeping sees of a node. -/
structure NodeInfo where
  id : Multihash
  parent : Option ℕ
  finalized : Bool

def info (h : Heap) (p : ℕ) : NodeInfo := ⟨h.id p, (h.cell p).parent, (h.cell p).finalized⟩

theorem info_of_extends {h h' : Heap} (extended : h.Extends h') {p : ℕ} (bound : p < h.size) :
    info h' p = info h p := by
  have frame := extended.frame p bound
  rw [info, info, Heap.id, Heap.id, frame.id_eq, frame.parent_eq, frame.finalized_eq]

/-- Blocks are the finalized nodes, and `tmp` names the pending node of each. -/
structure Paired (tmp : Multihash → Multihash) (index : List ℕ) (node : ℕ → NodeInfo) (mutexes : KeySet) :
    Prop where
  blocks : ∀ b ∈ index, (node b).finalized = true → ∀ id, tmp id ≠ (node b).id
  pending : ∀ b ∈ index, (node b).finalized = true → ∃ p ∈ index, node p = ⟨tmp (node b).id, some b, false⟩
  owned : ∀ p ∈ index, (node p).finalized = false →
    ∃ b ∈ index, (node b).finalized = true ∧ node p = ⟨tmp (node b).id, some b, false⟩
  guarded : ∀ id, id ∈ mutexes ↔ ∃ p ∈ index, (node p).finalized = false ∧ (node p).id = id

namespace Paired

variable {tmp : Multihash → Multihash} {index : List ℕ} {node node' : ℕ → NodeInfo} {mutexes : KeySet}

section

variable (paired : Paired tmp index node mutexes)

include paired

theorem congr (same : ∀ p ∈ index, node' p = node p) : Paired tmp index node' mutexes where
  blocks b mem done := by
    rw [same b mem] at done ⊢
    exact paired.blocks b mem done
  pending b mem done := by
    rw [same b mem] at done ⊢
    obtain ⟨p, known, shape⟩ := paired.pending b mem done
    exact ⟨p, known, (same p known).trans shape⟩
  owned p mem open' := by
    rw [same p mem] at open' ⊢
    obtain ⟨b, known, done, shape⟩ := paired.owned p mem open'
    refine ⟨b, known, ?_, ?_⟩
    · rw [same b known]
      exact done
    · rw [same b known]
      exact shape
  guarded id := by
    rw [paired.guarded]
    constructor
    · rintro ⟨p, known, rest⟩
      exact ⟨p, known, by rw [same p known]; exact rest⟩
    · rintro ⟨p, known, rest⟩
      rw [same p known] at rest
      exact ⟨p, known, rest⟩

/-- A new block with its pending node. -/
theorem addBlock {b p : ℕ} (id : Multihash) (parent : Option ℕ) (same : ∀ q ∈ index, node' q = node q)
    (block : node' b = ⟨id, parent, true⟩) (pending : node' p = ⟨tmp id, some b, false⟩)
    (plain : ∀ other, tmp other ≠ id) : Paired tmp (index ++ [b] ++ [p]) node' (mutexes.insert (tmp id)) := by
  have old := paired.congr same
  have split {q : ℕ} : q ∈ index ++ [b] ++ [p] ↔ (q ∈ index ∨ q = b) ∨ q = p := by
    simp only [mem_append, mem_singleton]
  constructor
  case blocks =>
    intro q mem done
    rcases split.mp mem with (inside | rfl) | rfl
    · exact old.blocks q inside done
    · rw [block]
      exact plain
    · rw [pending] at done
      contradiction
  case pending =>
    intro q mem done
    rcases split.mp mem with (inside | rfl) | rfl
    · obtain ⟨r, known, shape⟩ := old.pending q inside done
      exact ⟨r, split.mpr (.inl (.inl known)), shape⟩
    · refine ⟨p, split.mpr (.inr rfl), ?_⟩
      rw [block]
      exact pending
    · rw [pending] at done
      contradiction
  case owned =>
    intro q mem open'
    rcases split.mp mem with (inside | rfl) | rfl
    · obtain ⟨r, known, done, shape⟩ := old.owned q inside open'
      exact ⟨r, split.mpr (.inl (.inl known)), done, shape⟩
    · rw [block] at open'
      contradiction
    · refine ⟨b, split.mpr (.inl (.inr rfl)), ?_, ?_⟩
      · rw [block]
      · rw [block]
        exact pending
  case guarded =>
    intro other
    rw [mem_insert, Std.LawfulEqCmp.compare_eq_iff_eq, old.guarded]
    constructor
    · rintro (rfl | ⟨q, inside, rest⟩)
      · exact ⟨p, split.mpr (.inr rfl), by rw [pending]; exact ⟨rfl, rfl⟩⟩
      · exact ⟨q, split.mpr (.inl (.inl inside)), rest⟩
    · rintro ⟨q, mem, open', named⟩
      rcases split.mp mem with (inside | rfl) | rfl
      · exact .inr ⟨q, inside, open', named⟩
      · rw [block] at open'
        contradiction
      · rw [pending] at named
        exact .inl named

/-- A mutex that is made again. -/
theorem insertMutex {id : Multihash} (known : id ∈ mutexes) : Paired tmp index node (mutexes.insert id) where
  blocks := paired.blocks
  pending := paired.pending
  owned := paired.owned
  guarded other := by
    rw [mem_insert, Std.LawfulEqCmp.compare_eq_iff_eq, paired.guarded]
    refine ⟨fun either => either.elim ?_ (fun listed => listed), .inr⟩
    rintro rfl
    exact (paired.guarded id).mp known

/-- Some blocks are left, each with its pending node. -/
theorem restrict {index' : List ℕ} {mutexes' : KeySet}
    (unique : ∀ p ∈ index, ∀ q ∈ index, (node p).id = (node q).id → p = q) (subset : ∀ p ∈ index', p ∈ index)
    (same : ∀ p ∈ index', (node' p).id = (node p).id ∧ (node' p).finalized = (node p).finalized)
    (inner : ∀ p ∈ index', (node p).finalized = false → node' p = node p)
    (down : ∀ b ∈ index', ∀ p ∈ index, (node p).parent = some b → p ∈ index')
    (up : ∀ p ∈ index', (node p).finalized = false → ∀ b, (node p).parent = some b → b ∈ index')
    (guarded : ∀ id, id ∈ mutexes' ↔ id ∈ mutexes ∧ ∃ p ∈ index', (node' p).id = id) :
    Paired tmp index' node' mutexes' where
  blocks b mem done := by
    rw [(same b mem).2] at done
    rw [(same b mem).1]
    exact paired.blocks b (subset b mem) done
  pending b mem done := by
    rw [(same b mem).2] at done
    obtain ⟨p, known, shape⟩ := paired.pending b (subset b mem) done
    have kept := down b mem p known (by rw [shape])
    refine ⟨p, kept, ?_⟩
    rw [inner p kept (by rw [shape]), (same b mem).1]
    exact shape
  owned p mem open' := by
    rw [(same p mem).2] at open'
    obtain ⟨b, known, done, shape⟩ := paired.owned p (subset p mem) open'
    have kept := up p mem open' b (by rw [shape])
    refine ⟨b, kept, (same b kept).2.trans done, ?_⟩
    rw [inner p mem open', (same b kept).1]
    exact shape
  guarded id := by
    rw [guarded, paired.guarded]
    constructor
    · rintro ⟨⟨q, known, open', named⟩, p, mem, named'⟩
      have equal := unique p (subset p mem) q known ((same p mem).1.symm.trans (named'.trans named.symm))
      subst equal
      exact ⟨p, mem, (same p mem).2.trans open', named'⟩
    · rintro ⟨p, mem, open', named⟩
      refine ⟨⟨p, subset p mem, (same p mem).2.symm.trans open', ?_⟩, p, mem, named⟩
      exact (same p mem).1.symm.trans named

end

end Paired

end Paired

/-- A well-formed database whose blocks and pending nodes are paired. -/
structure Bookkeeping (crypto : Crypto) (m : MempoolImpl) : Prop where
  wf : m.db.WellFormed
  paired : Paired (tmpId crypto) m.db.index (info m.db.heap) m.mutexes

variable {m m' : MempoolImpl}

namespace Bookkeeping

theorem heapOnly (book : Bookkeeping crypto m) (changed : HeapOnly m m') : Bookkeeping crypto m' := by
  obtain ⟨heap, extended, rfl⟩ := changed
  refine ⟨book.wf.of_extends extended, book.paired.congr ?_⟩
  exact fun p mem => info_of_extends extended (book.wf.tree.bound p mem)

/-- Only pending nodes are found under the id of one. -/
theorem unfinalized_of_tmpId (book : Bookkeeping crypto m) {id : Multihash} {p : ℕ}
    (found : m.db.getNode (tmpId crypto id) = some p) : (m.db.heap.cell p).finalized = false := by
  obtain ⟨mem, named⟩ := book.wf.getNode_iff.mp found
  by_contra done
  rw [Bool.not_eq_false] at done
  exact book.paired.blocks p mem done id named.symm

/-- Under any other id a block is found. -/
theorem finalized_of_plain (book : Bookkeeping crypto m) {id : Multihash} (plain : ∀ other, tmpId crypto other ≠ id)
    {p : ℕ} (found : m.db.getNode id = some p) : (m.db.heap.cell p).finalized = true := by
  obtain ⟨mem, named⟩ := book.wf.getNode_iff.mp found
  by_contra pending
  rw [Bool.not_eq_true] at pending
  obtain ⟨b, -, -, shape⟩ := book.paired.owned p mem pending
  have same : m.db.heap.id p = tmpId crypto (info m.db.heap b).id := congrArg NodeInfo.id shape
  exact plain _ (same.symm.trans named)

end Bookkeeping

section HandleBlock

variable {block : Chain.Block}

theorem onDatabase_eq_ok {α : Type} {call : Database → Except StateDbError α × Database} {a : α}
    (ok : onDatabase call m = .ok a m') : ∃ db, call m.db = (.ok a, db) ∧ m' = { m with db } := by
  rcases onDatabase_eq call m with ⟨a', db, ran, outcome⟩ | ⟨e, db, ran, outcome⟩
  · rw [outcome] at ok
    cases ok
    exact ⟨db, ran, rfl⟩
  · rw [outcome] at ok
    cases ok

/-- A block that is cloned is new, or it is known and has no transactions. -/
theorem cloneBlock_eq_ok (ok : cloneBlock codec crypto block m = .ok true m') :
    ∃ node db, m.db.cloneNode (m.basisId crypto block) block.id block.header = (.ok node, db) ∧
      HeapOnly { m with db } m' := by
  rw [cloneBlock, get_bind] at ok
  cases found : m.db.getNode (m.basisId crypto block) with
  | none =>
    rw [found] at ok
    cases ok
  | some basis =>
    rw [found] at ok
    obtain ⟨node, m₁, cloned, rest⟩ := bind_eq_ok ok
    obtain ⟨db, ran, rfl⟩ := onDatabase_eq_ok cloned
    refine ⟨node, db, ran, ?_⟩
    cases ids : block.transactions.map Chain.Transaction.id with
    | nil =>
      rw [ids] at rest
      cases rest
      exact refl_of HeapOnly _
    | cons id ids' =>
      rw [ids] at rest
      obtain ⟨p, m₂, points, rest⟩ := bind_eq_ok rest
      have unchanged := final_dereference node { m with db }
      rw [points, final] at unchanged
      subst unchanged
      obtain ⟨count, m₃, removed, rest⟩ := bind_eq_ok rest
      cases rest
      have writes : Writes p (removePendingTransactionsOnNode codec p (id :: ids')) :=
        writes_removePendingTransactionsOnNode _
      have changed := heapOnly_onNodes (writes.mono fun _ _ touches => touches.rewrites.toExtends) { m with db }
      rw [removed] at changed
      exact changed

/-- What a call that returns has done. -/
theorem handleBlock_eq_ok {accepted : Bool}
    (ok : handleBlock codec crypto algo block m = .ok accepted m') :
    cloneBlock codec crypto block m = .ok false m' ∨
    ∃ m₁ db, cloneBlock codec crypto block m = .ok true m₁ ∧
      m₁.db.finalizeNode algo block.id = (.ok (), db) ∧
      m' = { db := (db.createWritableNode block.id (tmpId crypto block.id) {}).2
             mutexes := m₁.mutexes.insert (tmpId crypto block.id) } := by
  rw [handleBlock] at ok
  obtain ⟨cloned, m₁, guarded, rest⟩ := bind_eq_ok ok
  have body : cloneBlock codec crypto block m = .ok cloned m₁ := by
    rcases tryCatch_eq_ok guarded with body | ⟨e, _, -, handled⟩
    · exact body
    · by_cases crashed : e = .nullNode
      · rw [if_pos crashed] at handled
        cases handled
      · rw [if_neg crashed] at handled
        obtain ⟨_, _, -, rethrown⟩ := bind_eq_ok handled
        cases rethrown
  cases cloned with
  | false =>
    cases rest
    exact .inl body
  | true =>
    obtain ⟨_, m₂, finalized, rest⟩ := bind_eq_ok rest
    have ran : onDatabase (·.finalizeNode algo block.id) m₁ = .ok () m₂ := by
      rcases tryCatch_eq_ok finalized with ran | ⟨e, _, -, handled⟩
      · exact ran
      · cases handled
    obtain ⟨db, done, rfl⟩ := onDatabase_eq_ok ran
    cases rest
    exact .inr ⟨m₁, db, body, done, rfl⟩

theorem cloneBlock_eq_false (ok : cloneBlock codec crypto block m = .ok false m') : m' = m := by
  rw [cloneBlock, get_bind] at ok
  cases found : m.db.getNode (m.basisId crypto block) with
  | none =>
    rw [found] at ok
    cases ok
    rfl
  | some basis =>
    rw [found] at ok
    obtain ⟨node, m₁, -, rest⟩ := bind_eq_ok ok
    cases ids : block.transactions.map Chain.Transaction.id with
    | nil =>
      rw [ids] at rest
      cases rest
    | cons id ids' =>
      rw [ids] at rest
      obtain ⟨p, m₂, -, rest⟩ := bind_eq_ok rest
      obtain ⟨count, m₃, -, rest⟩ := bind_eq_ok rest
      cases rest

/-- Finalizing a node is all that the bookkeeping sees of the choice of the head. -/
theorem info_finalizeNode {db db' : Database} (wf : db.WellFormed) {id : Multihash} {n : ℕ}
    (found : db.getNode id = some n) (success : db.finalizeNode algo id = (.ok (), db')) :
    db'.index = db.index ∧ ∀ p, info db'.heap p =
      if p = n then { info db.heap p with finalized := true } else info db.heap p := by
  obtain ⟨node, found', head, forkHeads, -, rfl⟩ := finalizeNode_eq wf.forkIds success
  obtain rfl := Option.some.inj (found.symm.trans found')
  rw [updateForkHeads_index, updateForkHeads_heap]
  refine ⟨rfl, fun p => ?_⟩
  change info (db.markFinalized n).heap p = _
  rw [info, info, id_markFinalized, parent_markFinalized, markFinalized_cell]
  split <;> rfl

theorem createWritableNode_of_taken {db : Database} {parentId newId : Multihash} {p : ℕ}
    (taken : db.getNode newId = some p) (header : BlockHeader) :
    (db.createWritableNode parentId newId header).2 = db := by
  rw [createWritableNode]
  split
  · rfl
  · simp [taken]

/-- A block that the mempool already has is finalized again, and its pending node stays. -/
theorem Bookkeeping.finalizeKnown (book : Bookkeeping crypto m) {n : ℕ} (known : m.db.getNode block.id = some n)
    (done : (m.db.heap.cell n).finalized = true) {db : Database}
    (success : m.db.finalizeNode algo block.id = (.ok (), db)) :
    Bookkeeping crypto { db := (db.createWritableNode block.id (tmpId crypto block.id) {}).2
                         mutexes := m.mutexes.insert (tmpId crypto block.id) } := by
  have wf := book.wf.finalizeNode success
  obtain ⟨index, infos⟩ := info_finalizeNode book.wf known success
  obtain ⟨mem, named⟩ := book.wf.getNode_iff.mp known
  have same (p : ℕ) : info db.heap p = info m.db.heap p := by
    rw [infos]
    split_ifs with equal
    · rw [equal, info, done]
    · rfl
  have paired : Paired (tmpId crypto) db.index (info db.heap) m.mutexes := by
    rw [index]
    exact book.paired.congr fun p _ => same p
  obtain ⟨p, inside, shape⟩ := paired.pending n (index ▸ mem) (by rw [same]; exact done)
  have label : db.heap.id p = tmpId crypto block.id := by
    have equal : db.heap.id p = tmpId crypto (info db.heap n).id := congrArg NodeInfo.id shape
    rw [equal, same]
    exact congrArg (tmpId crypto) named
  rw [createWritableNode_of_taken (wf.getNode_iff.mpr ⟨inside, label⟩)]
  refine ⟨wf, paired.insertMutex ((paired.guarded _).mpr ⟨p, inside, ?_, label⟩)⟩
  rw [shape]

section

variable (injective : Function.Injective (tmpId crypto)) (book : Bookkeeping crypto m)

include injective book

/-- The id of the pending node of an unknown block is free. -/
theorem Bookkeeping.tmpId_fresh {id : Multihash} (unknown : m.db.getNode id = none) {p : ℕ} (mem : p ∈ m.db.index) :
    m.db.heap.id p ≠ tmpId crypto id := by
  intro named
  cases done : (m.db.heap.cell p).finalized with
  | true => exact book.paired.blocks p mem done id named.symm
  | false =>
    obtain ⟨b, known, -, shape⟩ := book.paired.owned p mem done
    have same : m.db.heap.id p = tmpId crypto (m.db.heap.id b) := congrArg NodeInfo.id shape
    have equal := injective (same.symm.trans named)
    exact Database.WellFormed.getNode_eq_none_iff.mp unknown b known equal

/-- A block that was cloned from a pending node is finalized and gets a pending node of its own. -/
theorem Bookkeeping.finalizeNew
    (unknown : m.db.getNode block.id = none) (plain : ∀ other, tmpId crypto other ≠ block.id)
    {n : ℕ} (parent : Option ℕ) {cloned db : Database} (wf : cloned.WellFormed)
    (grown : cloned.index = m.db.index ++ [n])
    (old : ∀ p ∈ m.db.index, info cloned.heap p = info m.db.heap p)
    (new : info cloned.heap n = ⟨block.id, parent, false⟩)
    (success : cloned.finalizeNode algo block.id = (.ok (), db)) :
    Bookkeeping crypto { db := (db.createWritableNode block.id (tmpId crypto block.id) {}).2
                         mutexes := m.mutexes.insert (tmpId crypto block.id) } := by
  have listed : n ∈ cloned.index := grown ▸ mem_append_right _ (mem_singleton_self n)
  have named : cloned.heap.id n = block.id := congrArg NodeInfo.id new
  obtain ⟨index, infos⟩ := info_finalizeNode wf (wf.getNode_iff.mpr ⟨listed, named⟩) success
  have wf' := wf.finalizeNode success
  have outside {p : ℕ} (mem : p ∈ m.db.index) : p ≠ n := by
    have distinct := wf.tree.nodup
    rw [grown, nodup_append] at distinct
    exact distinct.2.2 p mem n (mem_singleton_self n)
  have old' {p : ℕ} (mem : p ∈ m.db.index) : info db.heap p = info m.db.heap p := by
    rw [infos, if_neg (outside mem)]
    exact old p mem
  have new' : info db.heap n = ⟨block.id, parent, true⟩ := by rw [infos, if_pos rfl, new]
  have found : db.getNode block.id = some n := wf'.getNode_iff.mpr ⟨index ▸ listed, congrArg NodeInfo.id new'⟩
  have fresh : db.getNode (tmpId crypto block.id) = none := by
    rw [Database.WellFormed.getNode_eq_none_iff]
    intro p mem same
    rw [index, grown, mem_append, mem_singleton] at mem
    rcases mem with inside | rfl
    · have equal : db.heap.id p = m.db.heap.id p := congrArg NodeInfo.id (old' inside)
      exact book.tmpId_fresh injective unknown inside (equal.symm.trans same)
    · have label : db.heap.id p = block.id := congrArg NodeInfo.id new'
      exact plain block.id (same.symm.trans label)
  have created := wf'.createWritableNode block.id (tmpId crypto block.id) {}
  have bound := wf'.tree.bound n (index ▸ listed)
  rw [createWritableNode_eq found (congrArg NodeInfo.finalized new') fresh] at created ⊢
  refine ⟨created, ?_⟩
  have linked : ∀ j, ((db.heap.cell n).makeChild n (tmpId crypto block.id) {}).parent = some j →
      j < db.heap.size := by
    rintro j ⟨⟩
    exact bound
  have kept {p : ℕ} (inside : p < db.heap.size) :
      info (db.heap.makeChild n (tmpId crypto block.id) {}) p = info db.heap p :=
    info_of_extends (.makeChild _ _ _ _) inside
  change Paired (tmpId crypto) (db.index ++ [db.heap.size]) _ _
  rw [index, grown]
  refine book.paired.addBlock block.id parent ?_ ?_ ?_ plain
  · intro p mem
    have known : p ∈ db.index := by
      rw [index, grown]
      exact mem_append_left _ mem
    exact (kept (wf'.tree.bound p known)).trans (old' mem)
  · exact (kept bound).trans new'
  · rw [info, Heap.id, Heap.makeChild, db.heap.cell_push linked, if_pos rfl]
    rfl

/-- A block event that returns keeps the pairing. -/
theorem Bookkeeping.handleBlock (plain : ∀ other, tmpId crypto other ≠ block.id) {accepted : Bool}
    (ok : handleBlock codec crypto algo block m = .ok accepted m') : Bookkeeping crypto m' := by
  rcases handleBlock_eq_ok ok with rejected | ⟨m₁, db, cloned, finalized, rfl⟩
  · rw [cloneBlock_eq_false rejected]
    exact book
  obtain ⟨node, db₁, ran, changed⟩ := cloneBlock_eq_ok cloned
  cases found : m.db.getNode (m.basisId crypto block) with
  | none =>
    simp only [cloneNode, found] at ran
    cases ran
  | some basis =>
    have writable := book.unfinalized_of_tmpId found
    cases taken : m.db.getNode block.id with
    | some n =>
      simp only [cloneNode, found, writable, taken] at ran
      cases ran
      have book₁ := book.heapOnly changed
      obtain ⟨heap, extended, rfl⟩ := changed
      have known : (m.withHeap heap).db.getNode block.id = some n := by
        obtain ⟨mem, named⟩ := book.wf.getNode_iff.mp taken
        refine book₁.wf.getNode_iff.mpr ⟨mem, ?_⟩
        exact (congrArg NodeInfo.id (info_of_extends extended (book.wf.tree.bound n mem))).trans named
      exact book₁.finalizeKnown known (book₁.finalized_of_plain plain known) finalized
    | none =>
      have wf := book.wf.cloneNode (m.basisId crypto block) block.id block.header
      rw [ran] at wf
      simp only [cloneNode, found, writable, taken] at ran
      cases ran
      obtain ⟨heap, extended, rfl⟩ := changed
      obtain ⟨mem, -⟩ := book.wf.getNode_iff.mp found
      obtain ⟨b, known, -, shape⟩ := book.paired.owned basis mem writable
      have linked := book.wf.clone_linked found block.id block.header
      have size : (m.db.heap.clone basis block.id block.header).size = m.db.heap.size + 1 := m.db.heap.size_push linked
      refine book.finalizeNew injective taken plain (some b) (wf.of_extends extended)
        (n := m.db.heap.size) rfl ?_ ?_ finalized
      · intro p inside
        have bound := book.wf.tree.bound p inside
        refine (info_of_extends extended (by rw [size]; omega)).trans ?_
        rw [info, info, Heap.id, Heap.id, Heap.clone, m.db.heap.cell_push_of_lt _ bound]
      · refine (info_of_extends extended (by rw [size]; omega)).trans ?_
        rw [info, Heap.id, Heap.clone, m.db.heap.cell_push linked, if_pos rfl]
        have up : (m.db.heap.cell basis).parent = some b := congrArg NodeInfo.parent shape
        rw [StateDelta.clone, up, writable]

end

end HandleBlock

section Irreversible

theorem handleIrreversibility_eq_ok {id : Multihash} (ok : handleIrreversibility crypto id m = .ok () m') :
    m' = m ∨ ∃ db, m.db.commitNode crypto id true = (.ok (), db) ∧
      m' = { db, mutexes := m.mutexes.filter fun id => (db.getNode id).isSome } := by
  rw [handleIrreversibility, get_bind] at ok
  cases found : m.db.getNode id with
  | none =>
    rw [found] at ok
    cases ok
    exact .inl rfl
  | some node =>
    rw [found] at ok
    obtain ⟨_, m₁, commits, rest⟩ := bind_eq_ok ok
    obtain ⟨db, ran, rfl⟩ := onDatabase_eq_ok commits
    cases rest
    exact .inr ⟨db, ran, rfl⟩

/-- An irreversibility event that returns keeps the pairing. -/
theorem Bookkeeping.handleIrreversibility (book : Bookkeeping crypto m) {id : Multihash}
    (ok : handleIrreversibility crypto id m = .ok () m') : Bookkeeping crypto m' := by
  rcases handleIrreversibility_eq_ok ok with rfl | ⟨db, commits, rfl⟩
  · exact book
  have wf := book.wf.commitNode commits
  refine ⟨wf, ?_⟩
  have guarded (id : Multihash) : id ∈ m.mutexes.filter (fun id => (db.getNode id).isSome) ↔
      id ∈ m.mutexes ∧ ∃ p ∈ db.index, (info db.heap p).id = id := by
    rw [← mem_toList, toList_filter, mem_filter, mem_toList]
    refine and_congr_right (fun _ => ?_)
    rw [Option.isSome_iff_exists]
    exact exists_congr fun p => wf.getNode_iff
  have unique := book.wf.tree.id_inj
  rcases book.wf.commitNode_cases commits with
    rfl | ⟨n, mem, inner, below, b, new, h', -, committed, forkHeads, -, rfl⟩
  · exact book.paired.restrict unique (fun p known => known) (fun p _ => ⟨rfl, rfl⟩) (fun p _ _ => rfl)
      (fun b _ p known _ => known) (fun p known _ b up => (book.wf.tree.parent_mem known up).1) guarded
  · have kept {p : ℕ} (known : p ∈ m.db.index) : m.db.root ∉ h'.path p ↔ n ∈ m.db.heap.path p := by
      have top := book.wf.tree.top_eq mem
      have rooted : m.db.heap.top n ∈ m.db.heap.path p := by
        rw [top]
        exact book.wf.tree.root_mem_path known
      have above := committed.top_mem_path_iff (book.wf.parent_ne_none mem inner) rooted
      rw [top] at above
      rw [above, not_not]
    have stays {p : ℕ} : p ∈ ({ m.db with heap := h', root := n }.without m.db.root forkHeads).index ↔
        p ∈ m.db.index ∧ n ∈ m.db.heap.path p := by
      rw [mem_index_without]
      exact and_congr_right kept
    have finalized : (m.db.heap.cell n).finalized = true := by
      rcases eq_or_ne n m.db.head with rfl | proper
      · exact book.wf.head_finalized
      · exact (book.wf.tree.of_mem_path book.wf.head_mem below proper).2
    have apart {p : ℕ} (open' : (info m.db.heap p).finalized = false) : p ≠ n := by
      rintro rfl
      rw [info, finalized] at open'
      contradiction
    refine book.paired.restrict unique (fun p known => (stays.mp known).1) ?_ ?_ ?_ ?_ guarded
    · intro p _
      obtain ⟨id, -, done⟩ := committed.cell_frame p
      exact ⟨id, done⟩
    · intro p _ open'
      obtain ⟨id, -, done⟩ := committed.cell_frame p
      change info h' p = info m.db.heap p
      rw [info, info, Heap.id, Heap.id, id, done, committed.parent_of_ne (apart open')]
    · intro b known p listed up
      exact stays.mpr ⟨listed, m.db.heap.mem_path_iff.mpr (.inr ⟨b, up, (stays.mp known).2⟩)⟩
    · intro p known open' b up
      obtain ⟨listed, through⟩ := stays.mp known
      exact stays.mpr ⟨(book.wf.tree.parent_mem listed up).1, m.db.heap.mem_path_link up through (apart open').symm⟩

end Irreversible

section Runs

variable {op : MempoolOp}

/-- Block ids are not the ids of pending nodes. -/
def MempoolOp.Plain (crypto : Crypto) : MempoolOp → Prop
  | .handleBlock block => ∀ id, tmpId crypto id ≠ block.id
  | _ => True

/-- The call returns. -/
def Returns (codec : Codec) (crypto : Crypto) (algo : ForkResolution) (m : MempoolImpl) (op : MempoolOp) :
    Prop :=
  ∃ m', apply codec crypto algo op m = .ok () m'

theorem bookkeeping_create (codec : Codec) (rootless : ∀ id, tmpId crypto id ≠ Multihash.zero) :
    Bookkeeping crypto (.create codec crypto) := by
  have wf : (openLockless codec.keys {} []).WellFormed := .openLockless codec.keys (.of_none rfl) []
  have cell : (openLockless codec.keys {} []).heap.cell 0 =
      { openDelta {} with finalized := true } := by
    simp only [openLockless, foldl_nil, ite_self]
    exact Heap.cell_empty_push rfl
  have index : (openLockless codec.keys {} []).index = [0] := rfl
  have head : (openLockless codec.keys {} []).head = 0 := rfl
  have named : (openLockless codec.keys {} []).heap.id 0 = Multihash.zero := by
    rw [Heap.id, cell]
    rfl
  have found : (openLockless codec.keys {} []).getNode Multihash.zero = some 0 :=
    wf.getNode_iff.mpr ⟨index ▸ mem_singleton_self 0, named⟩
  have fresh : (openLockless codec.keys {} []).getNode (tmpId crypto Multihash.zero) = none := by
    rw [Database.WellFormed.getNode_eq_none_iff]
    intro p mem same
    rw [index, mem_singleton] at mem
    rw [mem, named] at same
    exact rootless _ same.symm
  have created := wf.createWritableNode Multihash.zero (tmpId crypto Multihash.zero) {}
  have bound := wf.tree.bound 0 (index ▸ mem_singleton_self 0)
  have linked : ∀ j, (((openLockless codec.keys {} []).heap.cell 0).makeChild 0
      (tmpId crypto Multihash.zero) {}).parent = some j →
        j < (openLockless codec.keys {} []).heap.size := by
    rintro j ⟨⟩
    exact bound
  have empty : Paired (tmpId crypto) [] (info (openLockless codec.keys {} []).heap) ∅ := by
    constructor <;> simp
  rw [MempoolImpl.create, head, named]
  rw [createWritableNode_eq found (by rw [cell]) fresh] at created ⊢
  refine ⟨created, ?_⟩
  change Paired (tmpId crypto) ([] ++ [0] ++ [(openLockless codec.keys {} []).heap.size])
    (info ((openLockless codec.keys {} []).heap.makeChild 0 (tmpId crypto Multihash.zero) {})) _
  refine empty.addBlock Multihash.zero none (fun p mem => by contradiction) ?_ ?_ rootless
  · refine (info_of_extends (.makeChild _ _ _ _) bound).trans ?_
    rw [info, named, cell]
    rfl
  · rw [info, Heap.id, Heap.makeChild, LinkedStore.cell_push _ linked, if_pos rfl]
    rfl

/-- Every call that returns keeps the pairing. -/
theorem Bookkeeping.step (injective : Function.Injective (tmpId crypto)) (book : Bookkeeping crypto m)
    (plain : op.Plain crypto) (ok : apply codec crypto algo op m = .ok () m') : Bookkeeping crypto m' := by
  cases op with
  | addPendingTransaction transaction time maxPayerRc =>
    obtain ⟨rcUsed, ok⟩ := ignore_eq_ok ok
    have changed : HeapOnly m (final (addPendingTransaction codec crypto transaction time maxPayerRc m)) :=
      heapOnly_addPendingTransaction _ _ _ m
    rw [ok] at changed
    exact book.heapOnly changed
  | removePendingTransactions ids =>
    obtain ⟨count, ok⟩ := ignore_eq_ok ok
    have changed : HeapOnly m (final (removePendingTransactions codec crypto ids m)) :=
      heapOnly_removePendingTransactions ids m
    rw [ok] at changed
    exact book.heapOnly changed
  | prune expiration now =>
    obtain ⟨count, ok⟩ := ignore_eq_ok ok
    have changed : HeapOnly m (final (prune codec crypto expiration now m)) := heapOnly_prune expiration now m
    rw [ok] at changed
    exact book.heapOnly changed
  | handleBlock block =>
    obtain ⟨accepted, ok⟩ := ignore_eq_ok ok
    exact book.handleBlock injective plain ok
  | handleIrreversibility id => exact book.handleIrreversibility ok

/-- The pending node of a block is found together with its mutex. -/
theorem Bookkeeping.relevantNode_eq (book : Bookkeeping crypto m) (id : Option Multihash) {b : ℕ}
    (found : id.elim (some m.db.head) m.db.getNode = some b) (done : (m.db.heap.cell b).finalized = true)
    (known : b ∈ m.db.index) : ∃ p ∈ m.db.index, (m.db.heap.cell p).finalized = false ∧
      (m.db.heap.cell p).parent = some b ∧ relevantNode crypto id m = .ok (some p) m := by
  obtain ⟨p, mem, shape⟩ := book.paired.pending b known done
  have named : m.db.heap.id p = tmpId crypto (m.db.heap.id b) := congrArg NodeInfo.id shape
  have open' : (m.db.heap.cell p).finalized = false := congrArg NodeInfo.finalized shape
  have mutex : tmpId crypto (m.db.heap.id b) ∈ m.mutexes := (book.paired.guarded _).mpr ⟨p, mem, open', named⟩
  refine ⟨p, mem, open', congrArg NodeInfo.parent shape, ?_⟩
  rw [relevantNode, get_bind, found]
  dsimp only
  rw [mem_iff_contains.mp mutex, bind_of_ok (require_true _ m), book.wf.getNode_iff.mpr ⟨mem, named⟩]
  rfl

theorem bookkeeping_of_reachable (injective : Function.Injective (tmpId crypto))
    (rootless : ∀ id, tmpId crypto id ≠ Multihash.zero) (reached : (mempoolMachine codec crypto algo).Reachable
      (fun m op => op.Plain crypto ∧ Returns codec crypto algo m op) m) : Bookkeeping crypto m := by
  refine reached.invariant ?_ ?_
  · rintro m rfl
    exact bookkeeping_create codec rootless
  · rintro m op m' book ⟨plain, m'', ok⟩ ⟨rfl, -⟩
    rw [ok]
    exact book.step injective plain ok

/-- Whatever calls have returned: each block of the database has a pending node, each node that is not
finalized is one, the mutexes are those of the pending nodes, and no lookup of a block misses one. -/
theorem pairing_of_reachable (codec : Codec) (crypto : Crypto) (algo : ForkResolution) (m : MempoolImpl)
    (injective : Function.Injective (tmpId crypto)) (rootless : ∀ id, tmpId crypto id ≠ Multihash.zero)
    (reached : (mempoolMachine codec crypto algo).Reachable
      (fun m op => op.Plain crypto ∧ Returns codec crypto algo m op) m) :
    (∀ b ∈ m.db.index, (m.db.heap.cell b).finalized = true → ∃ p ∈ m.db.index,
      (m.db.heap.cell p).finalized = false ∧ (m.db.heap.cell p).parent = some b ∧
        m.db.heap.id p = tmpId crypto (m.db.heap.id b)) ∧
    (∀ p ∈ m.db.index, (m.db.heap.cell p).finalized = false → ∃ b ∈ m.db.index,
      (m.db.heap.cell b).finalized = true ∧ (m.db.heap.cell p).parent = some b ∧
        m.db.heap.id p = tmpId crypto (m.db.heap.id b)) ∧
    (∀ id, id ∈ m.mutexes ↔ ∃ p ∈ m.db.index, (m.db.heap.cell p).finalized = false ∧ m.db.heap.id p = id) ∧
    (∀ id, (∀ other, tmpId crypto other ≠ id) → ∃ found, relevantNode crypto (some id) m = .ok found m ∧
      found.isSome = (m.db.getNode id).isSome) ∧
    (∃ p, relevantNode crypto none m = .ok (some p) m) ∧
    ∀ p ∈ m.db.getAllNodes, (m.db.heap.cell p).finalized = false → m.db.heap.id p ∈ m.mutexes := by
  have book := bookkeeping_of_reachable injective rootless reached
  refine ⟨?_, ?_, book.paired.guarded, ?_, ?_, ?_⟩
  · intro b known done
    obtain ⟨p, mem, shape⟩ := book.paired.pending b known done
    exact ⟨p, mem, congrArg NodeInfo.finalized shape, congrArg NodeInfo.parent shape, congrArg NodeInfo.id shape⟩
  · intro p known open'
    obtain ⟨b, mem, done, shape⟩ := book.paired.owned p known open'
    exact ⟨b, mem, done, congrArg NodeInfo.parent shape, congrArg NodeInfo.id shape⟩
  · intro id plain
    cases found : m.db.getNode id with
    | none =>
      refine ⟨none, ?_, rfl⟩
      rw [relevantNode, get_bind, Option.elim_some, found]
      rfl
    | some b =>
      obtain ⟨p, -, -, -, looked⟩ := book.relevantNode_eq (some id) found
        (book.finalized_of_plain plain found) (book.wf.getNode_iff.mp found).1
      exact ⟨some p, looked, rfl⟩
  · obtain ⟨p, -, -, -, looked⟩ := book.relevantNode_eq none rfl book.wf.head_finalized book.wf.head_mem
    exact ⟨p, looked⟩
  · intro p listed open'
    rw [getAllNodes, mem_insertionSort] at listed
    exact (book.paired.guarded _).mpr ⟨p, listed, open', rfl⟩

/-- No block is named like a pending node of `marked`. -/
def plainName : MempoolOp → Bool
  | .handleBlock block => block.id.head? != some 0
  | _ => true

theorem plain_of_plainName {op : MempoolOp} (named : plainName op = true) : op.Plain marked := by
  cases op with
  | handleBlock block =>
    intro id same
    rw [plainName, ← same] at named
    contradiction
  | _ => trivial

/-- A call that returns and names no pending node. -/
def passes (m : MempoolImpl) (op : MempoolOp) : Bool :=
  plainName op && !decide (Throws (fun _ => True) (apply .transparent marked .fifo op) m)

theorem passes_sound (m : MempoolImpl) (op : MempoolOp) (passed : passes m op = true) :
    op.Plain marked ∧ Returns .transparent marked .fifo m op := by
  rw [passes, Bool.and_eq_true, Bool.not_eq_true', decide_eq_false_iff_not] at passed
  obtain ⟨_, m', ok⟩ := exists_ok_of_not_throws passed.2
  exact ⟨plain_of_plainName passed.1, m', ok⟩

theorem pairing_of_reachable_of_competingBlocks :
    ∃ m, run .transparent marked .fifo passes (.create .transparent marked) competingBlocks = some m ∧
      m.db.index.length = 6 ∧ ∀ p ∈ m.db.index, (m.db.heap.cell p).finalized = false →
        ∃ b ∈ m.db.index, (m.db.heap.cell b).finalized = true ∧ (m.db.heap.cell p).parent = some b ∧
          m.db.heap.id p = tmpId marked (m.db.heap.id b) := by
  have ran : (run .transparent marked .fifo passes (.create .transparent marked) competingBlocks).any
      (fun m => m.db.index.length = 6) = true := by decide +kernel
  obtain ⟨m, ran, size⟩ := exists_of_any ran
  refine ⟨m, ran, size, ?_⟩
  refine (pairing_of_reachable .transparent marked .fifo m (cons_injective) ?_
    (reachable_of_run passes_sound (.start rfl) ran)).2.1
  intro id same
  exact absurd (cons.inj same).1 (by decide)

end Runs

end Teleno.Mempool
