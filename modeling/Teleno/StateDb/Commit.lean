import Teleno.StateDb.Lookup

/-! # Committing a chain of deltas

A commit replays every delta between the root and the committed node into the root's backend,
oldest first, and makes the node the new root. The replay is compared with the tombstone-aware
lookup one delta at a time; descendants keep their own deltas, so they only notice the commit
through the answers of the node itself.
-/

namespace Teleno.StateDb

open Library List Option

variable {b : Backend}

/-- What every single write preserves holds after a delta has been replayed. -/
theorem StateDelta.writeTo_preserves {motive : Backend → Prop}
    (put : ∀ b key value, motive b → motive (b.put key value)) (erase : ∀ b key, motive b → motive (b.erase key))
    (d : StateDelta) (start : motive b) : motive (d.writeTo b) := by
  have removals (keys : List Bytes) (b : Backend) (start : motive b) :
      motive (keys.foldl (fun b key => b.erase key) b) := by
    induction keys generalizing b with
    | nil => exact start
    | cons key rest ih => exact ih _ (erase b key start)
  have writes (entries : List (Bytes × Bytes)) (b : Backend) (start : motive b) :
      motive (entries.foldl (fun b entry => b.put entry.1 entry.2) b) := by
    induction entries generalizing b with
    | nil => exact start
    | cons entry rest ih => exact ih _ (put b entry.1 entry.2 start)
  exact writes _ _ (removals _ b start)

/-- The writes of a commit: the deltas below the root, nearest the root first. -/
def replay (chain : List StateDelta) (b : Backend) : Backend :=
  chain.foldr (fun d b => d.writeTo b) b

theorem replay_preserves {motive : Backend → Prop} (put : ∀ b key value, motive b → motive (b.put key value))
    (erase : ∀ b key, motive b → motive (b.erase key)) (chain : List StateDelta)
    (start : motive b) : motive (replay chain b) := by
  induction chain with
  | nil => exact start
  | cons d rest ih => exact d.writeTo_preserves put erase ih

theorem replay_pending (chain : List StateDelta) (pending : b.Pending) : (replay chain b).Pending :=
  replay_preserves (fun _ key value pending => pending.put key value)
    (fun _ key pending => pending.erase key) chain pending

/-- Writes never attach or detach a disk. -/
theorem replay_rocksdb_eq_none (chain : List StateDelta) (b : Backend) :
    (replay chain b).rocksdb = none ↔ b.rocksdb = none :=
  replay_preserves (motive := fun b' => b'.rocksdb = none ↔ b.rocksdb = none)
    (fun _ _ _ same => map_eq_none_iff.trans same)
    (fun _ _ same => map_eq_none_iff.trans same) chain Iff.rfl

private theorem write_writeBatch_ne_none {db : RocksDb} (opened : db.writeBatch ≠ none) (op : BatchOp) :
    (db.write op).writeBatch ≠ none := by
  obtain ⟨batch, began⟩ := ne_none_iff_exists'.mp opened
  simp [RocksDb.write, began]

/-- Writes never close a batch. -/
theorem replay_writeBatch_ne_none (chain : List StateDelta) (opened : ∀ db ∈ b.rocksdb, db.writeBatch ≠ none) :
    ∀ db ∈ (replay chain b).rocksdb, db.writeBatch ≠ none := by
  refine replay_preserves (motive := fun b => ∀ db ∈ b.rocksdb, db.writeBatch ≠ none) ?_ ?_ chain opened
  · intro b key value opened db stored
    obtain ⟨old, found, rfl⟩ := map_eq_some_iff.mp stored
    exact write_writeBatch_ne_none (opened old found) _
  · intro b key opened db stored
    obtain ⟨old, found, rfl⟩ := map_eq_some_iff.mp stored
    exact write_writeBatch_ne_none (opened old found) _

/-- Replaying a chain gives the answers a lookup through that chain would have given. -/
theorem get_replay (chain : List StateDelta) {root : StateDelta} (answers : ∀ k, b.get k = root.get k) (k : Bytes) :
    (replay chain b).get k = findIn (chain ++ [root]) k := by
  induction chain with
  | nil => exact (answers k).trans (findIn_singleton root k).symm
  | cons d rest ih => rw [replay, foldr_cons, d.get_writeTo, cons_append, findIn_cons, ← ih, replay]

namespace Heap

variable (crypto : Crypto)

/-- An accepted commit, delta by delta. -/
structure Committed (h : Heap) (p : ℕ) (old new : Backend) (h' : Heap) : Prop where
  size_eq : h'.size = h.size
  cell_self : h'.cell p =
    { h.cell p with
      parent := none
      backend := some new
      removedObjects := ∅
      merkleRootCache := some ((h.cell p).merkleRoot crypto) }
  cell_top : h'.cell (h.top p) = { h.cell (h.top p) with backend := none }
  cell_other : ∀ q, q ≠ p → q ≠ h.top p → h'.cell q = h.cell q
  get_eq : ∀ k, new.get k = h.find p k
  revision_eq : new.revision = (h.cell p).revision
  id_eq : new.id = (h.cell p).id
  merkleRoot_eq : new.merkleRoot = (h.cell p).merkleRoot crypto
  header_eq : new.header = (h.cell p).blockHeader
  rocksdb_eq_none : new.rocksdb = none ↔ old.rocksdb = none
  durable : old.Synced → new.Durable

variable {h : Heap} {p : ℕ}

theorem ne_top (inner : (h.cell p).parent ≠ none) : p ≠ h.top p := by
  intro same
  exact inner (same ▸ h.link_top p)

/-- The deltas a commit writes: everything on the path but the root. -/
private def chain (h : Heap) (p : ℕ) : List StateDelta := (h.path p).dropLast.map h.cell

private theorem lineage_eq_chain (h : Heap) (p : ℕ) : h.lineage p = chain h p ++ [h.cell (h.top p)] := by
  rw [LinkedStore.lineage, (h.path_eq_append_top p).1, map_append]
  rfl

/-- Taking the backend out of the root does not touch the deltas to be written. -/
private theorem foldl_writeTo_modify_top (h : Heap) (p : ℕ) (f : StateDelta → StateDelta) (keeps) (b : Backend) :
    (h.path p).dropLast.reverse.foldl (fun b q => ((h.modify (h.top p) f keeps).cell q).writeTo b) b =
      replay (chain h p) b := by
  have nodup := h.path_nodup p
  rw [(h.path_eq_append_top p).1] at nodup
  rw [foldl_reverse, replay, chain, foldr_map]
  refine foldr_ext _ _ _ (fun q mem b => ?_)
  have other : q ≠ h.top p := by
    rintro rfl
    exact disjoint_of_nodup_append nodup mem (mem_singleton_self _)
  rw [h.cell_modify_of_ne f keeps other]

/-- The backend handed to the end of the batch. -/
private def unstored (h : Heap) (p : ℕ) (opened : Backend) : Backend :=
  { replay (chain h p) opened with
    header := (h.cell p).blockHeader
    revision := (h.cell p).revision
    id := (h.cell p).id
    merkleRoot := (h.cell p).merkleRoot crypto }

private theorem keeps_backendless (d : StateDelta) :
    { d with backend := none : StateDelta }.parent = d.parent ∨
      { d with backend := none : StateDelta }.parent = none := .inl rfl

private theorem keeps_cached (d : StateDelta) :
    { d with merkleRootCache := some (d.merkleRoot crypto) : StateDelta }.parent = d.parent ∨
      { d with merkleRootCache := some (d.merkleRoot crypto) : StateDelta }.parent = none := .inl rfl

/-- The heap once the root has lost its backend and the node's state root is cached. -/
private def cached (h : Heap) (p : ℕ) : Heap :=
  (h.modify (h.top p) (fun d => { d with backend := none }) keeps_backendless).modify p
    (fun d => { d with merkleRootCache := some (d.merkleRoot crypto) }) (keeps_cached crypto)

section

variable {opened : Backend} {accepted : Bool} (inner : (h.cell p).parent ≠ none)

include inner

private theorem isRoot_eq_false : (h.cell p).isRoot = false := by
  rw [StateDelta.isRoot, isNone_eq_false_iff, isSome_iff_ne_none]
  exact inner

variable (owned : (h.cell (h.top p)).backend = some b) (began : b.startWriteBatch = .ok opened)

include owned began

private theorem commit_of_ok {ended : Backend}
    (finished : (unstored crypto h p opened).storeMetadata.endWriteBatch accepted = .ok ended) :
    h.commit crypto p accepted = (.ok (), (cached crypto h p).modify p
      (fun d => { d with removedObjects := ∅, backend := some ended, parent := none })
      (fun _ => .inr rfl)) := by
  simp only [unstored] at finished
  simp only [commit, isRoot_eq_false inner, Bool.false_eq_true, if_false, owned, began,
    foldl_writeTo_modify_top, h.cell_modify_of_ne _ _ (ne_top inner), finished, cached]

private theorem commit_of_error {e : StateDbError}
    (finished : (unstored crypto h p opened).storeMetadata.endWriteBatch accepted = .error e) :
    h.commit crypto p accepted = (.error e, cached crypto h p) := by
  simp only [unstored] at finished
  simp only [commit, isRoot_eq_false inner, Bool.false_eq_true, if_false, owned, began,
    foldl_writeTo_modify_top, h.cell_modify_of_ne _ _ (ne_top inner), finished, cached]

end

/-- A batch that ends well commits the node. -/
theorem commit_accepted {b : Backend} {accepted : Bool} (inner : (h.cell p).parent ≠ none)
    (owned : (h.cell (h.top p)).backend = some b) (idle : b.Idle) (accepts : accepted = true ∨ b.rocksdb = none) :
    ∃ h' new, h.commit crypto p accepted = (.ok (), h') ∧ Committed crypto h p b new h' := by
  obtain ⟨opened, began, objects, disk, -, pending⟩ := Backend.startWriteBatch_of_idle idle
  have disk' : (unstored crypto h p opened).rocksdb = none ↔ b.rocksdb = none :=
    (replay_rocksdb_eq_none (chain h p) opened).trans disk
  obtain ⟨ended, finished, objects', revision, id, root, header, disk'', durable⟩ :=
    Backend.endWriteBatch_of_accepted (accepts.imp_right disk'.mpr)
  have distinct := ne_top inner
  have answers (k : Bytes) : ended.get k = h.find p k := by
    have start (k : Bytes) : opened.get k = (h.cell (h.top p)).get k := by
      rw [Backend.get, objects, StateDelta.get_eq, owned, bind_some, Backend.get]
    rw [find, lineage_eq_chain, ← get_replay (chain h p) start k, Backend.get, objects']
    rfl
  refine ⟨_, ended, commit_of_ok crypto inner owned began finished, ?_⟩
  constructor
  case size_eq => rfl
  case cell_self => simp [cached, h.cell_modify_of_ne _ _ distinct]
  case cell_top => simp [cached, LinkedStore.cell_modify_of_ne _ _ _ distinct.symm]
  case cell_other =>
    intro q other outer
    simp [cached, LinkedStore.cell_modify_of_ne _ _ _ other, h.cell_modify_of_ne _ _ outer]
  case get_eq => exact answers
  case revision_eq => exact revision
  case id_eq => exact id
  case merkleRoot_eq => exact root
  case header_eq => exact header
  case rocksdb_eq_none => exact disk''.trans disk'
  case durable => exact fun synced => durable (replay_pending (chain h p) (pending synced))

/-- A rejected batch leaves the old root without a backend and the node with a cached root. -/
theorem commit_rejected {b : Backend} (inner : (h.cell p).parent ≠ none)
    (owned : (h.cell (h.top p)).backend = some b) (idle : b.Idle) (disk : b.rocksdb ≠ none) :
    h.commit crypto p false = (.error .writeException,
      (h.modify (h.top p) (fun d => { d with backend := none }) (fun _ => .inl rfl)).modify p
        (fun d => { d with merkleRootCache := some (d.merkleRoot crypto) }) (fun _ => .inl rfl)) := by
  obtain ⟨opened, began, -, same, queued, -⟩ := Backend.startWriteBatch_of_idle idle
  have disk' : (unstored crypto h p opened).rocksdb ≠ none :=
    fun absent => disk (same.mp ((replay_rocksdb_eq_none (chain h p) opened).mp absent))
  have rejected := Backend.endWriteBatch_of_rejected disk' (replay_writeBatch_ne_none (chain h p) queued)
  exact commit_of_error crypto inner owned began rejected

namespace Committed

variable {crypto} {h' : Heap} {old new : Backend} (committed : Committed crypto h p old new h')

include committed

theorem cell_frame (q : ℕ) : (h'.cell q).id = (h.cell q).id ∧ (h'.cell q).revision = (h.cell q).revision ∧
    (h'.cell q).finalized = (h.cell q).finalized := by
  rcases eq_or_ne q p with rfl | other
  · rw [committed.cell_self]
    exact ⟨rfl, rfl, rfl⟩
  rcases eq_or_ne q (h.top p) with rfl | outer
  · rw [committed.cell_top]
    exact ⟨rfl, rfl, rfl⟩
  · rw [committed.cell_other q other outer]
    exact ⟨rfl, rfl, rfl⟩

theorem parent_self : (h'.cell p).parent = none := by rw [committed.cell_self]

theorem parent_of_ne {q : ℕ} (other : q ≠ p) : (h'.cell q).parent = (h.cell q).parent := by
  rcases eq_or_ne q (h.top p) with rfl | outer
  · rw [committed.cell_top]
  · rw [committed.cell_other q other outer]

/-- The old root is now above exactly the deltas that do not descend from the node. -/
theorem top_mem_path_iff (inner : (h.cell p).parent ≠ none) {m : ℕ} (rooted : h.top p ∈ h.path m) :
    h.top p ∈ h'.path m ↔ p ∉ h.path m := by
  have distinct := ne_top inner
  constructor
  · intro above through
    obtain ⟨lower, -, after, members⟩ := h.path_cut h' committed.parent_self
      (fun k _ other _ => committed.parent_of_ne other) through
    rw [after, mem_append, mem_singleton] at above
    rcases above with listed | same
    · have below := (members _ listed).2.2
      rw [h.path_of_none (h.link_top p), mem_singleton] at below
      exact distinct below
    · exact distinct same.symm
  · intro outside
    rw [h.path_congr h' (fun k mem => committed.parent_of_ne (fun same => outside (same ▸ mem)))]
    exact rooted

end Committed

/-- After a commit every delta on a path through the node answers as before. -/
theorem Committed.find_eq {h' : Heap} {old new : Backend} (committed : Committed crypto h p old new h') {m : ℕ}
    (through : p ∈ h.path m) (k : Bytes) : h'.find m k = h.find m k := by
  have cut : (h'.cell p).parent = none := by rw [committed.cell_self]
  have same (q : ℕ) (_ : q ∈ h.path m) (other : q ≠ p) (above : p ∈ h.path q) : h'.cell q = h.cell q := by
    refine committed.cell_other q other ?_
    rintro rfl
    rw [h.path_of_none (h.link_top p), mem_singleton] at above
    exact other above.symm
  obtain ⟨lower, before, after⟩ := h.lineage_cut h' cut same through
  rw [find, find, before, after]
  refine findIn_append_congr ?_ lower
  rw [findIn_singleton, StateDelta.get_eq, committed.cell_self]
  exact committed.get_eq k

/-- Committing a node turns it into the root of the same views: the backend answers every key as
the node did, every delta reached through the node answers as before, and the stored metadata is
that of the node. -/
theorem commit_preserves_views (h : Heap) (n : ℕ) (b : Backend) (inner : (h.cell n).parent ≠ none)
    (owned : (h.cell (h.top n)).backend = some b) (synced : b.Synced) :
    ∃ h' b', h.commit crypto n true = (.ok (), h') ∧
      (h'.cell n).parent = none ∧ (h'.cell n).backend = some b' ∧
      (∀ k, b'.get k = h.find n k) ∧
      (∀ m, n ∈ h.path m → ∀ k, h'.find m k = h.find m k) ∧
      b'.revision = (h.cell n).revision ∧ b'.id = (h.cell n).id ∧
      b'.merkleRoot = (h.cell n).merkleRoot crypto ∧ b'.header = (h.cell n).blockHeader ∧
      b'.Durable := by
  obtain ⟨h', b', success, committed⟩ := commit_accepted crypto inner owned synced.idle (.inl rfl)
  refine ⟨h', b', success, ?_, ?_, committed.get_eq, ?_, committed.revision_eq, committed.id_eq,
    committed.merkleRoot_eq, committed.header_eq, committed.durable synced⟩
  · rw [committed.cell_self]
  · rw [committed.cell_self]
  · intro m through k
    exact committed.find_eq crypto through k

/-- A stored object that a child removes and then writes again, below a grandchild. -/
def rewrittenObject : Heap :=
  let root : Heap := empty.push { backend := some { objects := (∅ : ObjectMap).insert [1] [7] } }
  (((root.makeChild 0 [1] {}).erase 1 [1] false).put 1 [1] [9]).makeChild 1 [2] {}

theorem commit_preserves_views_of_rewrittenObject :
    (rewrittenObject.cell 1).isRemoved [1] = true ∧ (rewrittenObject.cell 1).get [1] = some [9] ∧
      ∃ h' b', rewrittenObject.commit Crypto.transparent 1 true = (.ok (), h') ∧
        (h'.cell 1).backend = some b' ∧ b'.get [1] = some [9] ∧ h'.find 2 [1] = some [9] := by
  refine ⟨by decide, by decide, ?_⟩
  obtain ⟨h', b', success, -, owned, answers, views, -⟩ := commit_preserves_views Crypto.transparent
    rewrittenObject 1 { objects := (∅ : ObjectMap).insert [1] [7] } (by decide) (by rfl)
    (by intro db stored; contradiction)
  refine ⟨h', b', success, owned, ?_, ?_⟩
  · rw [answers]
    decide
  · rw [views 2 (by decide)]
    decide

end Heap

end Teleno.StateDb
