import Teleno.StateDb.Failure

/-! # Advancing the last irreversible block

The controller commits the applied block's ancestor at the last irreversible height. The disk then
opens as the committed state.
-/

namespace Teleno.StateDb

open Library

/-- `rocksdb_backend::open` in a new process, which has no batch. -/
def RocksDb.load (disk : RocksDb) : Backend where
  objects := disk.objects
  revision := disk.metadata.revision
  id := disk.metadata.id
  merkleRoot := disk.metadata.merkleRoot
  header := disk.metadata.header
  rocksdb := some { disk with writeBatch := none }

/-- What a node shows: its id, revision, state root, header and objects. -/
def Heap.observed (h : Heap) (crypto : Crypto) (p : ℕ) :=
  (h.id p, h.revision p, (h.cell p).merkleRoot crypto, (h.cell p).blockHeader, h.find p)

/-- The walk to the first ancestor not above a revision; past the top is a null pointer. -/
def Heap.ancestorAt (h : Heap) (revision p : ℕ) : Option ℕ := (h.path p).find? fun q => h.revision q ≤ revision

/-- In a fork tree the walk ends at the ancestor with the revision asked for, or at once. -/
theorem ForkTree.ancestorAt_eq {h : Heap} {index : List ℕ} {root p revision : ℕ} (tree : ForkTree h index root)
    (known : h.revision root ≤ revision) (mem : p ∈ index) :
    ∃ q ∈ h.path p, h.ancestorAt revision p = some q ∧ h.revision q = min revision (h.revision p) := by
  refine tree.induction (motive := fun p => ∃ q ∈ h.path p, h.ancestorAt revision p = some q ∧
    h.revision q = min revision (h.revision p)) ?_ ?_ mem
  · exact ⟨root, h.self_mem_path root, by simp [Heap.ancestorAt, h.path_of_none tree.root_parent, known], by omega⟩
  · intro p mem _ q _ up ⟨r, above, ends, level⟩
    have next := (tree.parent_mem mem up).2.1
    by_cases low : h.revision p ≤ revision
    · exact ⟨p, h.self_mem_path p, by simp [Heap.ancestorAt, h.path_of_some up, low], by omega⟩
    · exact ⟨r, by simp [h.path_of_some up, above], by simpa [Heap.ancestorAt, h.path_of_some up, low] using ends,
        by omega⟩

namespace Database

variable (db : Database)

/-- The walk starts at the head if there is no such child. -/
def getNodeAtRevision (revision : ℕ) (childId : Multihash) : Except StateDbError ℕ :=
  if revision < db.heap.revision db.root then .error .illegalArgument
  else if revision = db.heap.revision db.root then .ok db.root
  else
    let child := (db.getNode childId).getD db.head
    match (db.heap.ancestorAt revision child).bind fun p => db.getNode (db.heap.id p) with
    | none => .error .internalError
    | some node => .ok node

/-- The end of `apply_block` and `apply_block_delta`. -/
def advanceIrreversible (crypto : Crypto) (lib : ℕ) (blockId : Multihash) (accepted : Bool) :
    Except StateDbError Unit × Database :=
  if lib > db.heap.revision db.root then
    match db.getNodeAtRevision lib blockId with
    | .error e => (.error e, db)
    | .ok node => db.commitNode crypto (db.heap.id node) accepted
  else (.ok (), db)

variable {db} {crypto : Crypto}

theorem WellFormed.getNodeAtRevision (wf : db.WellFormed) {revision child : ℕ} {childId : Multihash}
    (found : db.getNode childId = some child) (higher : db.heap.revision db.root < revision) :
    ∃ node ∈ db.heap.path child, node ∈ db.index ∧ db.getNodeAtRevision revision childId = .ok node ∧
      db.heap.revision node = min revision (db.heap.revision child) := by
  have start := (wf.getNode_iff.mp found).1
  obtain ⟨q, above, ends, level⟩ := wf.tree.ancestorAt_eq higher.le start
  have mem := wf.tree.mem_of_mem_path start above
  refine ⟨q, above, mem, ?_, level⟩
  simp [Database.getNodeAtRevision, higher.not_gt, higher.ne', found, ends, wf.getNode_iff.mpr ⟨mem, rfl⟩]

variable {codec : KeyCodec} {algo : ForkResolution}
  (reached : (databaseMachine codec crypto algo).Reachable (fun _ _ => True) db)

include reached

/-- The block's ancestor at the last irreversible height becomes the root if the head descends from
it: its subtree stays, with the same views. Otherwise the step throws. -/
theorem advanceIrreversible_of_lt {lib block : ℕ} {blockId : Multihash} (found : db.getNode blockId = some block)
    (due : db.heap.revision db.root < lib) :
    ∃ node ∈ db.heap.path block, db.heap.revision node = min lib (db.heap.revision block) ∧
      if node ∈ db.heap.path db.head then
        ∃ db', db.advanceIrreversible crypto lib blockId true = (.ok (), db') ∧ db'.root = node ∧
          (∀ p, p ∈ db'.index ↔ p ∈ db.index ∧ node ∈ db.heap.path p) ∧
          ∀ p ∈ db'.index, db'.heap.find p = db.heap.find p
      else (db.advanceIrreversible crypto lib blockId true).1 = .error .cannotDiscard := by
  have wf := wellFormed_of_reachable reached
  obtain ⟨node, above, mem, found, level⟩ := wf.getNodeAtRevision found due
  refine ⟨node, above, level, ?_⟩
  simp only [advanceIrreversible, gt_iff_lt, if_pos due, found]
  rcases eq_or_ne node db.root with rfl | inner
  · rw [if_pos (wf.tree.root_mem_path wf.head_mem), commitNode, if_pos rfl]
    exact ⟨db, rfl, rfl, fun p => (and_iff_left_of_imp wf.tree.root_mem_path).symm, fun _ _ => rfl⟩
  obtain ⟨b, owned, synced⟩ := wf.root_backend
  obtain ⟨h', new, ran, committed⟩ := wf.commit_accepted crypto mem inner owned synced (.inl rfl)
  split_ifs with below
  · obtain ⟨forkHeads, -, result⟩ := wf.commitNode_of_head_below mem inner committed ran below
    have kept (p : ℕ) (known : p ∈ db.index) : db.root ∉ h'.path p ↔ node ∈ db.heap.path p := by
      rw [← wf.tree.top_eq mem, committed.top_mem_path_iff (wf.parent_ne_none mem inner), not_not]
      exact wf.tree.top_eq mem ▸ wf.tree.root_mem_path known
    refine ⟨_, result, rfl, fun p => mem_index_without.trans (and_congr_right (kept p)), fun p known => ?_⟩
    obtain ⟨known, stays⟩ := mem_index_without.mp known
    exact funext (committed.find_eq crypto ((kept p known).mp stays))
  · obtain ⟨_, failure, -⟩ := wf.commitNode_of_head_elsewhere mem inner committed ran below
    rw [failure]

omit reached in
/-- The first of two blocks on the root is the head, so it becomes irreversible and the other one does not. -/
theorem advanceIrreversible_of_rootForks :
    ∃ db, openEmpty.run .transparent .transparent .fifo rootForks = some db ∧
      (∃ db', db.advanceIrreversible .transparent 1 [1] true = (.ok (), db') ∧ db'.root = 1 ∧
        ∀ p ∈ db'.index, db'.heap.find p = db.heap.find p) ∧
      (db.advanceIrreversible .transparent 1 [2] true).1 = .error .cannotDiscard := by
  have ran : ((openEmpty.run .transparent .transparent .fifo rootForks).any fun db => decide
      (db.heap.revision db.root < 1 ∧
        db.getNode [1] = some 1 ∧ 1 ∈ db.heap.path db.head ∧ db.getNode [2] = some 2 ∧ 2 ∉ db.heap.path db.head ∧
        ∀ p ∈ ([1, 2] : List ℕ), ∀ node ∈ db.heap.path p,
          db.heap.revision node = min 1 (db.heap.revision p) → node = p)) = true := by decide
  obtain ⟨db, ran, reached, due, first, below, second, aside, only⟩ := exists_run ran
  obtain ⟨node, above, level, advances⟩ := advanceIrreversible_of_lt reached first due
  obtain ⟨node', above', level', throws⟩ := advanceIrreversible_of_lt reached second due
  obtain rfl := only 1 (by simp) node above level
  obtain rfl := only 2 (by simp) node' above' level'
  rw [if_pos below] at advances
  rw [if_neg aside] at throws
  obtain ⟨db', success, root, -, views⟩ := advances
  exact ⟨db, ran, ⟨db', success, root, views⟩, throws⟩

/-- The disk after a commit opens as the committed node, whatever the genesis data. -/
theorem openLockless_of_committed {n : ℕ} (mem : n ∈ db.index) (inner : n ≠ db.root)
    (below : n ∈ db.heap.path db.head) (init : List (DatabaseKey × Bytes)) :
    ∃ b db', db.commitNode crypto (db.heap.id n) true = (.ok (), db') ∧
      (db'.heap.cell db'.root).backend = some b ∧ ∀ disk ∈ b.rocksdb,
        (openLockless codec disk.load init).heap.observed crypto 0 = db.heap.observed crypto n := by
  have wf := wellFormed_of_reachable reached
  obtain ⟨b, owned, synced⟩ := wf.root_backend
  obtain ⟨h', new, ran, committed⟩ := wf.commit_accepted crypto mem inner owned synced (.inl rfl)
  obtain ⟨forkHeads, -, result⟩ := wf.commitNode_of_head_below mem inner committed ran below
  refine ⟨new, _, result, congrArg StateDelta.backend committed.cell_self, fun disk stored => ?_⟩
  obtain ⟨-, objects, metadata⟩ := committed.durable synced disk stored
  -- the committed node is above the root, so the genesis data is not written again
  have later : disk.metadata.revision ≠ 0 := by
    rw [metadata, Backend.metadata, committed.revision_eq]
    exact Nat.ne_zero_of_lt (wf.tree.of_mem_path mem (wf.tree.root_mem_path mem) inner.symm).1
  have cell : (openLockless codec disk.load init).heap.cell 0 = { openDelta disk.load with finalized := true } := by
    simp only [openLockless, openDelta, RocksDb.load, later, false_and, if_false]
    exact Heap.cell_empty_push rfl
  have answers : (openLockless codec disk.load init).heap.find 0 = db.heap.find n := by
    funext k
    rw [Heap.find, LinkedStore.lineage, LinkedStore.path_of_none _ (by rw [cell]; rfl), List.map_singleton,
      findIn_singleton, cell, StateDelta.get_eq, ← committed.get_eq, Backend.get, ← objects]
    rfl
  rw [Heap.observed, Heap.observed, answers, Heap.id, Heap.id, Heap.revision, Heap.revision, cell, ← committed.id_eq,
    ← committed.revision_eq, ← committed.merkleRoot_eq, ← committed.header_eq]
  simp [openDelta, RocksDb.load, metadata, Backend.metadata, StateDelta.merkleRoot, StateDelta.blockHeader]

/-- An empty database on disk. -/
def emptyDisk : RocksDb := ⟨∅, ⟨0, 0, .zero, [], {}⟩, none⟩

omit reached in
/-- The first of two blocks on the root is committed and read back from the disk. -/
theorem openLockless_of_committed_rootForks :
    ∃ db, (openLockless .transparent emptyDisk.load []).run .transparent .transparent .fifo rootForks = some db ∧
      ∃ db' b disk, db.commitNode .transparent (db.heap.id 1) true = (.ok (), db') ∧
        (db'.heap.cell db'.root).backend = some b ∧ b.rocksdb = some disk ∧
        (openLockless .transparent disk.load []).heap.observed .transparent 0 = db.heap.observed .transparent 1 := by
  have ran : ((openLockless .transparent emptyDisk.load []).run .transparent .transparent .fifo rootForks).any
      (fun db => decide (1 ∈ db.index ∧ 1 ≠ db.root ∧ 1 ∈ db.heap.path db.head ∧
        let db' := (db.commitNode .transparent (db.heap.id 1) true).2
        ∀ b ∈ (db'.heap.cell db'.root).backend, b.rocksdb.isSome)) = true := by decide +kernel
  obtain ⟨db, ran, mem, inner, below, saved⟩ := exists_of_any ran
  have synced : emptyDisk.load.Synced := fun _ stored => Option.some.inj stored ▸ ⟨rfl, rfl⟩
  obtain ⟨b, db', success, owned, opens⟩ :=
    openLockless_of_committed (reachable_of_run (.start ⟨_, _, synced, rfl⟩) ran) mem inner below []
  rw [success] at saved
  obtain ⟨disk, stored⟩ := Option.isSome_iff_exists.mp (saved b owned)
  exact ⟨db, ran, db', b, disk, success, owned, stored, opens disk stored⟩

end Database

end Teleno.StateDb
