import Teleno.StateDb.WellFormed

/-! # Discards and commits of well-formed databases

A discard removes one subtree, a commit everything outside the subtree of the committed node. Both
keep the database well formed when they return; a discard that throws does so too. With the other
operations this makes every reachable database well formed.
-/

namespace Teleno.StateDb

open Library Database

namespace Database

namespace WellFormed

variable {db db' : Database} {s : ℕ}

variable {forkHeads : ForkHeads}

/-- Erasing the entries of removed nodes leaves only old entries. -/
theorem fork_of_cut (cut : db.CutHeads s forkHeads) {id : Multihash} {p : ℕ}
    (entry : forkHeads[id]? = some p) : db.forkHeads[id]? = some p := by
  by_cases known : ∃ q ∈ db.index, db.heap.id q = id
  · obtain ⟨q, mem, rfl⟩ := known
    rw [cut.inside q mem] at entry
    split at entry
    · contradiction
    · exact entry
  · rwa [cut.outside id (fun q mem same => known ⟨q, mem, same⟩)] at entry

/-- Fork heads that lost the entries of removed nodes only. -/
private theorem forks_without (forks : ∀ id p, db.forkHeads[id]? = some p →
      p ∈ db.index ∧ db.heap.id p = id ∧ (db.heap.cell p).finalized = true)
    (cut : db.CutHeads s forkHeads) {id : Multihash} {p : ℕ} (entry : forkHeads[id]? = some p) :
    p ∈ db.index ∧ s ∉ db.heap.path p ∧ db.heap.id p = id ∧ (db.heap.cell p).finalized = true := by
  obtain ⟨mem, named, done⟩ := forks id p (fork_of_cut cut entry)
  refine ⟨mem, fun removed => ?_, named, done⟩
  rw [← named, cut.inside p mem, if_pos removed] at entry
  contradiction

section

variable (wf : db.WellFormed)

include wf

/-- Removing the subtree of `s` from the index and the fork heads. -/
private theorem without (inner : s ≠ db.root) (elsewhere : s ∉ db.heap.path db.head)
    (cut : db.CutHeads s forkHeads) : (db.without s forkHeads).WellFormed where
  tree := by
    refine wf.tree.filter ?_ ?_
    · rw [decide_eq_true_iff, db.heap.path_of_none wf.tree.root_parent, List.mem_singleton]
      exact inner
    · intro p _ q up kept
      rw [decide_eq_true_iff] at kept ⊢
      exact fun above => kept (db.heap.mem_path_iff.mpr (.inr ⟨q, up, above⟩))
  head_mem := mem_index_without.mpr ⟨wf.head_mem, elsewhere⟩
  head_fork := by
    change forkHeads[db.heap.id db.head]? = some db.head
    rw [cut.inside db.head wf.head_mem, if_neg elsewhere]
    exact wf.head_fork
  forks id p entry := by
    obtain ⟨mem, kept, rest⟩ := forks_without wf.forks cut entry
    exact ⟨mem_index_without.mpr ⟨mem, kept⟩, rest⟩

/-- A finalized node may always be added to the fork heads under its id. -/
private theorem insertFork {q : ℕ} (mem : q ∈ db.index) (done : (db.heap.cell q).finalized = true) :
    { db with forkHeads := db.forkHeads.insert (db.heap.id q) q }.WellFormed where
  tree := wf.tree
  head_mem := wf.head_mem
  head_fork := by
    rw [ForkHeads.getElem?_insert]
    split_ifs with same
    · rw [wf.tree.id_inj q mem db.head wf.head_mem same]
    · exact wf.head_fork
  forks id p entry := by
    rw [ForkHeads.getElem?_insert] at entry
    split_ifs at entry with same
    · cases entry
      exact ⟨mem, same, done⟩
    · exact wf.forks id p entry

/-- The parent of a removed node stays. -/
theorem parent_kept {q : ℕ} (mem : s ∈ db.index)
    (up : (db.heap.cell s).parent = some q) : q ∈ db.index ∧ s ∉ db.heap.path q := by
  refine ⟨(wf.tree.parent_mem mem up).1, fun below => ?_⟩
  exact absurd (db.heap.le_of_mem_path below) (Nat.not_le.mpr (db.heap.descending s q up))

/-- What a discard that returns has done to a node other than the root. -/
theorem discardNode_eq (mem : s ∈ db.index) (inner : s ≠ db.root) (elsewhere : s ∉ db.heap.path db.head) :
    ∃ forkHeads, db.CutHeads s forkHeads ∧
      ∃ q ∈ db.index, (db.heap.cell s).parent = some q ∧
        ((∃ p ∈ db.index, s ∉ db.heap.path p ∧ (db.heap.cell p).parent = some q) ∧
          db.discardNode (db.heap.id s) = (.ok (), db.without s forkHeads) ∨
        (∀ p ∈ db.index, s ∉ db.heap.path p → (db.heap.cell p).parent ≠ some q) ∧
          db.discardNode (db.heap.id s) =
            (.ok (), db.without s (forkHeads.insert (db.heap.id q) q))) := by
  have otherId : db.heap.id s ≠ db.heap.id db.root := fun same =>
    inner (wf.tree.id_inj s mem db.root wf.tree.root_mem same)
  obtain ⟨forkHeads, cut, shared, childless⟩ := discardNodeLockless_of_head_elsewhere
    wf.tree.forest mem db.harmless_nil otherId wf.head_mem elsewhere
  obtain ⟨q, known, up, -⟩ := wf.tree.parents s mem inner
  have under : db.parentId s = some (db.heap.id q) := (wf.parentId_eq_some_iff mem known).mpr up
  refine ⟨forkHeads, cut, q, known, up, ?_⟩
  by_cases siblings : ∃ p ∈ db.index, s ∉ db.heap.path p ∧ (db.heap.cell p).parent = some q
  · obtain ⟨p, found, kept, up'⟩ := siblings
    refine .inl ⟨⟨p, found, kept, up'⟩, shared ⟨p, mem_index_without.mpr ⟨found, kept⟩, ?_⟩⟩
    rw [under]
    exact (wf.parentId_eq_some_iff found known).mpr up'
  · have none_left : ∀ p ∈ db.index, s ∉ db.heap.path p → (db.heap.cell p).parent ≠ some q :=
      fun p found kept up' => siblings ⟨p, found, kept, up'⟩
    refine .inr ⟨none_left, childless ?_ q (mem_index_without.mpr (wf.parent_kept mem up)) under⟩
    intro p found same
    obtain ⟨found, kept⟩ := mem_index_without.mp found
    rw [under, wf.parentId_eq_some_iff found known] at same
    exact none_left p found kept same

/-- A discard at most forgets fork heads, or it removes a subtree the head is not in. -/
theorem discardNode_cases {nodeId : Multihash} {result : Except StateDbError Unit}
    (ran : db.discardNode nodeId = (result, db')) :
    (∃ forkHeads : ForkHeads, db' = { db with forkHeads } ∧ forkHeads[db.heap.id db.head]? = some db.head ∧
      ∀ (id : Multihash) (p : ℕ), forkHeads[id]? = some p → db.forkHeads[id]? = some p) ∨
    ∃ s ∈ db.index, nodeId = db.heap.id s ∧ s ≠ db.root ∧ s ∉ db.heap.path db.head ∧
      ∃ forkHeads, db.CutHeads s forkHeads ∧
        ∃ q ∈ db.index, (db.heap.cell s).parent = some q ∧ (db' = db.without s forkHeads ∨
          (∀ p ∈ db.index, s ∉ db.heap.path p → (db.heap.cell p).parent ≠ some q) ∧
            db' = db.without s (forkHeads.insert (db.heap.id q) q)) := by
  cases found : db.getNode nodeId with
  | none =>
    simp only [discardNode, discardNodeLockless, found] at ran
    cases ran
    exact .inl ⟨db.forkHeads, rfl, wf.head_fork, fun _ _ entry => entry⟩
  | some node =>
    obtain ⟨mem, rfl⟩ := wf.getNode_iff.mp found
    rcases eq_or_ne node db.root with rfl | inner
    · simp only [discardNode, discardNodeLockless, found, if_true] at ran
      cases ran
      exact .inl ⟨db.forkHeads, rfl, wf.head_fork, fun _ _ entry => entry⟩
    by_cases below : node ∈ db.heap.path db.head
    · obtain ⟨forkHeads, failure, head, passed, others⟩ := discardNodeLockless_of_head_below
        wf.tree.forest mem db.harmless_nil
        (fun same => inner (wf.tree.id_inj node mem db.root wf.tree.root_mem same)) wf.head_mem below
      rw [discardNode, failure] at ran
      cases ran
      refine .inl ⟨forkHeads, rfl, head.trans wf.head_fork, fun id p entry => ?_⟩
      by_cases earlier : Precedes db.childIds [db.heap.id node] id (db.heap.id db.head)
      · rw [passed id earlier] at entry
        contradiction
      · exact others id earlier ▸ entry
    · obtain ⟨forkHeads, cut, q, known, up, ⟨-, success⟩ | ⟨none_left, success⟩⟩ := wf.discardNode_eq mem inner below
      · rw [success] at ran
        cases ran
        exact .inr ⟨node, mem, rfl, inner, below, forkHeads, cut, q, known, up, .inl rfl⟩
      · rw [success] at ran
        cases ran
        exact .inr ⟨node, mem, rfl, inner, below, forkHeads, cut, q, known, up, .inr ⟨none_left, rfl⟩⟩

/-- A discard keeps the database well formed whether it returns or throws. -/
theorem discardNode {nodeId : Multihash} {result : Except StateDbError Unit}
    (ran : db.discardNode nodeId = (result, db')) : db'.WellFormed := by
  rcases wf.discardNode_cases ran with ⟨forkHeads, rfl, head, old⟩ |
    ⟨s, mem, -, inner, elsewhere, forkHeads, cut, q, known, up, rfl | ⟨-, rfl⟩⟩
  · exact ⟨wf.tree, wf.head_mem, head, fun id p entry => wf.forks id p (old id p entry)⟩
  · exact wf.without inner elsewhere cut
  · exact (wf.without inner elsewhere cut).insertFork
      (mem_index_without.mpr (wf.parent_kept mem up)) (wf.tree.parent_mem mem up).2.2

end

section Commit

variable {crypto : Crypto} {n : ℕ} {b new : Backend} {h' : Heap} {accepted : Bool}

theorem parent_ne_none (wf : db.WellFormed) (mem : n ∈ db.index) (inner : n ≠ db.root) :
    (db.heap.cell n).parent ≠ none :=
  fun top => inner ((wf.tree.parent_eq_none_iff mem).mp top)

theorem root_backend (wf : db.WellFormed) : ∃ b, (db.heap.cell db.root).backend = some b ∧ b.Synced := by
  obtain ⟨b, owned⟩ := Option.isSome_iff_exists.mp (wf.tree.held _ wf.tree.root_mem)
  exact ⟨b, owned, wf.tree.synced _ (wf.tree.bound _ wf.tree.root_mem) b owned⟩

section

variable (wf : db.WellFormed) (mem : n ∈ db.index)

include wf mem

section

variable (committed : db.heap.Committed crypto n b new h')

include committed

private theorem committed_forest : IndexForest h' db.index where
  nodup := wf.tree.nodup
  id_inj p left q right same := by
    rw [Heap.id, Heap.id, (committed.cell_frame p).1, (committed.cell_frame q).1] at same
    exact wf.tree.id_inj p left q right same
  parents p known q up := by
    have other : p ≠ n := by
      rintro rfl
      rw [committed.parent_self] at up
      contradiction
    rw [committed.parent_of_ne other] at up
    obtain ⟨found, next, -⟩ := wf.tree.parent_mem known up
    rw [Heap.revision, Heap.revision, (committed.cell_frame p).2.1, (committed.cell_frame q).2.1]
    exact ⟨found, next⟩

private theorem committed_harmless : Harmless { db with heap := h', root := n } [db.heap.id n] := by
  intro id child listed same
  obtain ⟨p, known, under, rfl⟩ := IndexForest.mem_childIds.mp listed
  have same : h'.id p = db.heap.id n := List.mem_singleton.mp same
  rw [Heap.id, (committed.cell_frame p).1] at same
  obtain rfl := wf.tree.id_inj p known n mem same
  rw [parentId, committed.parent_self] at under
  contradiction

end

variable (inner : n ≠ db.root)

include inner

private theorem id_ne_root : db.heap.id n ≠ db.heap.id db.root :=
  fun same => inner (wf.tree.id_inj n mem db.root wf.tree.root_mem same)

section

variable (crypto) (owned : (db.heap.cell db.root).backend = some b) (synced : b.Synced)

include owned synced

/-- A rejected batch throws after the node has become the root. -/
theorem commitNode_of_rejected (disk : b.rocksdb ≠ none) :
    ∃ db', db.commitNode crypto (db.heap.id n) false = (.error .writeException, db') ∧ db'.root = n := by
  obtain ⟨heap, failure⟩ : ∃ heap, db.heap.commit crypto n false = (.error .writeException, heap) :=
    ⟨_, Heap.commit_rejected crypto (wf.parent_ne_none mem inner)
      ((wf.tree.top_eq mem).symm ▸ owned) synced.idle disk⟩
  refine ⟨{ db with heap, root := n, index := db.index.erase n }, ?_, rfl⟩
  simp [commitNode, if_neg (wf.id_ne_root mem inner), wf.getNode_iff.mpr ⟨mem, rfl⟩, failure]

/-- The commit of the delta itself succeeds unless RocksDB rejects the batch. -/
theorem commit_accepted (accepts : accepted = true ∨ b.rocksdb = none) :
    ∃ h' new, db.heap.commit crypto n accepted = (.ok (), h') ∧ db.heap.Committed crypto n b new h' :=
  Heap.commit_accepted crypto (wf.parent_ne_none mem inner)
    ((wf.tree.top_eq mem).symm ▸ owned) synced.idle accepts

end

variable (committed : db.heap.Committed crypto n b new h')

include committed

private theorem committed_root_mem_path_iff {p : ℕ} (known : p ∈ db.index) :
    db.root ∈ h'.path p ↔ n ∉ db.heap.path p := by
  have iff := committed.top_mem_path_iff (wf.parent_ne_none mem inner) (m := p)
  rw [wf.tree.top_eq mem] at iff
  exact iff (wf.tree.root_mem_path known)

private theorem committed_distinct : h'.id db.root ≠ h'.id n :=
  fun same => inner ((wf.committed_forest mem committed).id_inj db.root wf.tree.root_mem n mem same).symm

section

variable (success : db.heap.commit crypto n accepted = (.ok (), h'))

include success

/-- The database between the commit of the delta and the discard of the old root. -/
private theorem commitNode_of_committed : db.commitNode crypto (db.heap.id n) accepted =
    { db with heap := h', root := n }.discardNodeLockless (h'.id db.root) [db.heap.id n] := by
  have same : h'.id db.root = db.heap.id db.root := (committed.cell_frame db.root).1
  simp [commitNode, if_neg (wf.id_ne_root mem inner), wf.getNode_iff.mpr ⟨mem, rfl⟩, success, same]

/-- The head descends from the node: everything else is discarded. -/
theorem commitNode_of_head_below (below : n ∈ db.heap.path db.head) :
    ∃ forkHeads, { db with heap := h', root := n }.CutHeads db.root forkHeads ∧
      db.commitNode crypto (db.heap.id n) accepted =
        (.ok (), { db with heap := h', root := n }.without db.root forkHeads) := by
  have elsewhere : db.root ∉ h'.path db.head := fun above =>
    (wf.committed_root_mem_path_iff mem inner committed wf.head_mem).mp above below
  obtain ⟨forkHeads, cut, shared, -⟩ :=
    @discardNodeLockless_of_head_elsewhere { db with heap := h', root := n } _ _ (wf.committed_forest mem committed)
      wf.tree.root_mem (wf.committed_harmless mem committed) (wf.committed_distinct mem inner committed) wf.head_mem
      elsewhere
  refine ⟨forkHeads, cut, ?_⟩
  rw [wf.commitNode_of_committed mem inner committed success]
  refine shared ⟨n, mem_index_without.mpr ⟨mem, ?_⟩, ?_⟩
  · rw [wf.committed_root_mem_path_iff mem inner committed mem, not_not]
    exact db.heap.self_mem_path n
  · have top : (h'.cell db.root).parent = none := (committed.parent_of_ne inner.symm).trans wf.tree.root_parent
    simp [parentId, committed.parent_self, top]

/-- The head does not descend from the node: the discard of the old root throws, but the node has
already become the root. -/
theorem commitNode_of_head_elsewhere (elsewhere : n ∉ db.heap.path db.head) :
    ∃ db', db.commitNode crypto (db.heap.id n) accepted = (.error .cannotDiscard, db') ∧ db'.root = n := by
  obtain ⟨forkHeads, failure, -⟩ := @discardNodeLockless_of_head_below { db with heap := h', root := n } _ _
    (wf.committed_forest mem committed) wf.tree.root_mem (wf.committed_harmless mem committed)
    (wf.committed_distinct mem inner committed) wf.head_mem
    ((wf.committed_root_mem_path_iff mem inner committed wf.head_mem).mpr elsewhere)
  refine ⟨{ db with heap := h', root := n, forkHeads }, ?_, rfl⟩
  rw [wf.commitNode_of_committed mem inner committed success]
  exact failure

end

/-- The subtree of a committed node is a fork tree under it. -/
private theorem committed_tree (below : n ∈ db.heap.path db.head) (synced : b.Synced) (forkHeads : ForkHeads) :
    ForkTree h' ({ db with heap := h', root := n }.without db.root forkHeads).index n := by
  have split {p : ℕ} : p ∈ ({ db with heap := h', root := n }.without db.root forkHeads).index ↔
      p ∈ db.index ∧ n ∈ db.heap.path p := by
    rw [mem_index_without]
    refine and_congr_right fun known => ?_
    rw [show db.root ∉ h'.path p ↔ n ∈ db.heap.path p from
      not_iff_comm.mp (wf.committed_root_mem_path_iff mem inner committed known).symm]
  have notRoot {p : ℕ} (through : n ∈ db.heap.path p) : p ≠ db.root := by
    rintro rfl
    rw [db.heap.path_of_none wf.tree.root_parent, List.mem_singleton] at through
    exact inner through
  have unchanged {p : ℕ} (known : p ∈ db.index) (through : n ∈ db.heap.path p) (other : p ≠ n) :
      h'.cell p = db.heap.cell p :=
    committed.cell_other p other (wf.tree.top_eq mem ▸ notRoot through)
  have forest := wf.committed_forest mem committed
  constructor
  case nodup => exact wf.tree.nodup.filter _
  case id_inj => exact fun p left q right => forest.id_inj p (split.mp left).1 q (split.mp right).1
  case bound => exact fun p known => committed.size_eq ▸ wf.tree.bound p (split.mp known).1
  case synced =>
    intro p inside
    rcases eq_or_ne p n with rfl | other
    · rw [committed.cell_self]
      rintro _ ⟨⟩
      exact (committed.durable synced).synced
    rcases eq_or_ne p (db.heap.top n) with rfl | outer
    · rw [committed.cell_top]
      rintro _ ⟨⟩
    · rw [committed.cell_other p other outer]
      exact wf.tree.synced p (committed.size_eq ▸ inside)
  case held =>
    intro p known
    obtain ⟨known, through⟩ := split.mp known
    rcases eq_or_ne p n with rfl | other
    · rw [committed.cell_self]
      rfl
    · rw [unchanged known through other]
      exact wf.tree.held p known
  case root_mem => exact split.mpr ⟨mem, db.heap.self_mem_path n⟩
  case root_parent => exact committed.parent_self
  case root_finalized =>
    rw [(committed.cell_frame n).2.2]
    rcases eq_or_ne n db.head with rfl | proper
    · exact wf.head_finalized
    · exact (wf.tree.of_mem_path wf.head_mem below proper).2
  case parents =>
    intro p known other
    obtain ⟨known, through⟩ := split.mp known
    obtain ⟨q, found, up, next, done⟩ := wf.tree.parents p known (notRoot through)
    refine ⟨q, split.mpr ⟨found, db.heap.mem_path_link up through other.symm⟩,
      (committed.parent_of_ne other).trans up, ?_, (committed.cell_frame q).2.2.trans done⟩
    rw [Heap.revision, Heap.revision, (committed.cell_frame p).2.1, (committed.cell_frame q).2.1]
    exact next

end

variable {nodeId : Multihash}

/-- A commit that returns was of the root, or of an ancestor of the head. -/
theorem commitNode_cases (wf : db.WellFormed) (success : db.commitNode crypto nodeId accepted = (.ok (), db')) :
    db' = db ∨ ∃ n ∈ db.index, n ≠ db.root ∧ n ∈ db.heap.path db.head ∧ ∃ b new h',
      b.Synced ∧ db.heap.Committed crypto n b new h' ∧ ∃ forkHeads,
        { db with heap := h', root := n }.CutHeads db.root forkHeads ∧
        db' = { db with heap := h', root := n }.without db.root forkHeads := by
  rcases eq_or_ne nodeId (db.heap.id db.root) with rfl | other
  · rw [commitNode, if_pos rfl] at success
    cases success
    exact .inl rfl
  cases found : db.getNode nodeId with
  | none =>
    simp only [commitNode, if_neg other, found] at success
    cases success
  | some node =>
    obtain ⟨mem, rfl⟩ := wf.getNode_iff.mp found
    have inner : node ≠ db.root := fun same => other (same ▸ rfl)
    obtain ⟨b, owned, synced⟩ := wf.root_backend
    by_cases accepts : accepted = true ∨ b.rocksdb = none
    · obtain ⟨h', new, ran, committed⟩ := wf.commit_accepted crypto mem inner owned synced accepts
      by_cases below : node ∈ db.heap.path db.head
      · obtain ⟨forkHeads, cut, result⟩ := wf.commitNode_of_head_below mem inner committed ran below
        rw [result] at success
        cases success
        exact .inr ⟨node, mem, inner, below, b, new, h', synced, committed, forkHeads, cut, rfl⟩
      · obtain ⟨_, failure, -⟩ := wf.commitNode_of_head_elsewhere mem inner committed ran below
        rw [failure] at success
        cases success
    · rw [not_or, Bool.not_eq_true] at accepts
      obtain ⟨rfl, disk⟩ := accepts
      obtain ⟨_, failure, -⟩ := wf.commitNode_of_rejected crypto mem inner owned synced disk
      rw [failure] at success
      cases success

/-- The commit of an ancestor of the head returns if RocksDB accepts it. -/
theorem commitNode_ok (crypto : Crypto) (wf : db.WellFormed) {node : ℕ} (found : db.getNode nodeId = some node)
    (below : node ∈ db.heap.path db.head) : ∃ db', db.commitNode crypto nodeId true = (.ok (), db') := by
  obtain ⟨mem, rfl⟩ := wf.getNode_iff.mp found
  rcases eq_or_ne node db.root with rfl | inner
  · exact ⟨db, by rw [commitNode, if_pos rfl]⟩
  · obtain ⟨b, owned, synced⟩ := wf.root_backend
    obtain ⟨h', new, ran, committed⟩ := wf.commit_accepted crypto mem inner owned synced (.inl rfl)
    obtain ⟨_, -, result⟩ := wf.commitNode_of_head_below mem inner committed ran below
    exact ⟨_, result⟩

/-- A commit that returns keeps the database well formed. -/
theorem commitNode (wf : db.WellFormed)
    (success : db.commitNode crypto nodeId accepted = (.ok (), db')) : db'.WellFormed := by
  rcases wf.commitNode_cases success with
    rfl | ⟨node, mem, inner, below, b, new, h', synced, committed, forkHeads, cut, rfl⟩
  · exact wf
  have elsewhere : db.root ∉ h'.path db.head := fun above =>
    (wf.committed_root_mem_path_iff mem inner committed wf.head_mem).mp above below
  refine ⟨wf.committed_tree mem inner committed below synced forkHeads,
    mem_index_without.mpr ⟨wf.head_mem, elsewhere⟩, ?_, ?_⟩
  · have entry := cut.inside db.head wf.head_mem
    rw [if_neg elsewhere] at entry
    refine entry.trans ?_
    rw [Heap.id, (committed.cell_frame db.head).1]
    exact wf.head_fork
  · intro id p entry
    have forks : ∀ id p, db.forkHeads[id]? = some p →
        p ∈ db.index ∧ h'.id p = id ∧ (h'.cell p).finalized = true := by
      intro id p entry
      rw [Heap.id, (committed.cell_frame p).1, (committed.cell_frame p).2.2]
      exact wf.forks id p entry
    obtain ⟨known, kept, rest⟩ := forks_without forks cut entry
    exact ⟨mem_index_without.mpr ⟨known, kept⟩, rest⟩

end Commit

/-- Every step of a run keeps the database well formed. -/
theorem step {codec : KeyCodec} {crypto : Crypto} {algo : ForkResolution} (wf : db.WellFormed) {op : DbOp}
    (moves : Step codec crypto algo db op db') : db'.WellFormed := by
  obtain ⟨result, ran⟩ := moves.ends
  cases op with
  | createWritableNode parentId newId header =>
    cases ran
    exact wf.createWritableNode parentId newId header
  | cloneNode nodeId newId header =>
    obtain rfl : (db.cloneNode nodeId newId header).2 = db' := congrArg Prod.snd ran
    exact wf.cloneNode nodeId newId header
  | transact nodeId calls => exact wf.transact ran
  | finalizeNode nodeId => exact wf.finalizeNode (moves.success (.inl ⟨nodeId, rfl⟩))
  | discardNode nodeId => exact wf.discardNode ran
  | commitNode nodeId accepted => exact wf.commitNode (moves.success (.inr ⟨nodeId, accepted, rfl⟩))

end WellFormed

/-- Every reachable database is well formed. -/
theorem wellFormed_of_reachable {codec : KeyCodec} {crypto : Crypto} {algo : ForkResolution}
    {guard : Database → DbOp → Prop} {db : Database}
    (reached : (databaseMachine codec crypto algo).Reachable guard db) : db.WellFormed := by
  refine reached.invariant ?_ ?_
  · rintro db ⟨backend, init, synced, rfl⟩
    exact .openLockless codec synced init
  · intro db op db' wf _ moves
    exact wf.step moves

/-- The fork tree of every reachable database: root and head are indexed, every other node has its
parent in the index one revision below, parents lead to the root, and the head is one of the fork
heads, all of which are finalized and indexed. -/
theorem reachable_fork_tree (codec : KeyCodec) (crypto : Crypto) (algo : ForkResolution) (db : Database)
    (reached : (databaseMachine codec crypto algo).Reachable (fun _ _ => True) db) :
    db.root ∈ db.index ∧ db.head ∈ db.index ∧
      (∀ p ∈ db.index, p ≠ db.root → ∃ q ∈ db.index, (db.heap.cell p).parent = some q ∧
        db.heap.revision p = db.heap.revision q + 1) ∧
      (∀ p ∈ db.index, db.root ∈ db.heap.path p) ∧
      (db.heap.cell db.head).finalized = true ∧
      (∀ id p, db.forkHeads[id]? = some p →
        p ∈ db.index ∧ db.heap.id p = id ∧ (db.heap.cell p).finalized = true) ∧
      db.forkHeads[db.heap.id db.head]? = some db.head := by
  have wf := wellFormed_of_reachable reached
  refine ⟨wf.tree.root_mem, wf.head_mem, ?_, fun p => wf.tree.root_mem_path, wf.head_finalized, wf.forks, wf.head_fork⟩
  intro p mem other
  obtain ⟨q, known, up, next, -⟩ := wf.tree.parents p mem other
  exact ⟨q, known, up, next⟩

/-- A database opened on an empty `map_backend`. -/
def openEmpty : Database := openLockless .transparent {} []

theorem openEmpty_reachable (algo : ForkResolution) {guard : Database → DbOp → Prop} :
    (databaseMachine .transparent .transparent algo).Reachable guard openEmpty :=
  .start ⟨{}, [], .of_none rfl, rfl⟩

theorem exists_run {algo : ForkResolution} {ops : List DbOp} {holds : Database → Prop} [DecidablePred holds]
    (ends : (openEmpty.run .transparent .transparent algo ops).any (fun db => decide (holds db)) = true) :
    ∃ db, openEmpty.run .transparent .transparent algo ops = some db ∧
      (databaseMachine .transparent .transparent algo).Reachable (fun _ _ => True) db ∧ holds db := by
  obtain ⟨db, ran, held⟩ := exists_of_any ends
  exact ⟨db, ran, reachable_of_run (openEmpty_reachable algo) ran, held⟩

/-- Two blocks, of which the first one is committed. -/
def twoBlocks : List DbOp :=
  [.createWritableNode .zero [1] { timestamp := 10 }, .finalizeNode [1],
    .createWritableNode [1] [2] { timestamp := 20 }, .finalizeNode [2], .commitNode [1] true]

theorem reachable_fork_tree_of_two_blocks :
    ∃ db, openEmpty.run .transparent .transparent .pob twoBlocks = some db ∧
      db.index.map db.heap.id = [[1], [2]] ∧ ∀ p ∈ db.index, db.root ∈ db.heap.path p := by
  have ran : (openEmpty.run .transparent .transparent .pob twoBlocks).any
      (fun db => decide (db.index.map db.heap.id = [[1], [2]])) = true := by decide
  obtain ⟨db, ran, reached, ids⟩ := exists_run ran
  exact ⟨db, ran, ids, (reachable_fork_tree _ _ _ db reached).2.2.2.1⟩

end Database

end Teleno.StateDb
