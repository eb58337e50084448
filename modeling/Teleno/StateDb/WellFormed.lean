import Teleno.StateDb.Finalize

/-! # Well-formed databases

The index is a fork tree, the fork heads are finalized nodes of it filed under their ids, and the
head is one of them. Every operation keeps this, also a discard that throws; only a commit that
throws does not. What is reachable from an opened database is therefore well formed.
-/

namespace Teleno.StateDb

open Library Option ForkHeads

namespace Database

structure WellFormed (db : Database) : Prop where
  tree : ForkTree db.heap db.index db.root
  head_mem : db.head ∈ db.index
  head_fork : db.forkHeads[db.heap.id db.head]? = some db.head
  forks : ∀ id p, db.forkHeads[id]? = some p →
    p ∈ db.index ∧ db.heap.id p = id ∧ (db.heap.cell p).finalized = true

/-- An opened database holds a single finalized node with the id and revision of its backend. -/
theorem openLockless_eq (codec : KeyCodec) (backend : Backend) (init : List (DatabaseKey × Bytes)) :
    ∃ root : StateDelta, { openDelta backend with finalized := true : StateDelta }.Frame root ∧
      root.finalized = true ∧ openLockless codec backend init =
        { heap := Heap.empty.push root
          index := [0]
          head := 0
          forkHeads := (∅ : ForkHeads).insert root.id 0
          root := 0 } := by
  have framed (d : StateDelta) : { d with finalized := true : StateDelta }.Frame
      { init.foldl (fun d entry => d.put (codec.serialize entry.1) entry.2) d with finalized := true } := by
    induction init generalizing d with
    | nil => exact .refl _
    | cons entry rest ih =>
      exact (StateDelta.Frame.put { d with finalized := true } (codec.serialize entry.1) entry.2).trans
        (ih (d.put (codec.serialize entry.1) entry.2))
  rw [openLockless]
  split
  · exact ⟨_, framed _, rfl, rfl⟩
  · exact ⟨_, .refl _, rfl, rfl⟩

theorem createWritableNode_eq {db : Database} {parentId newId : Multihash} {parent : ℕ}
    (found : db.getNode parentId = some parent) (done : (db.heap.cell parent).finalized = true)
    (fresh : db.getNode newId = none) (header : BlockHeader) :
    (db.createWritableNode parentId newId header).2 =
      { db with heap := db.heap.makeChild parent newId header, index := db.index ++ [db.heap.size] } := by
  simp [createWritableNode, found, done, fresh, Bool.not_true, isSome_none, Bool.or_self, Bool.false_eq_true]

/-- A node is created under a finalized parent and a new id, or nothing happens. -/
theorem createWritableNode_cases (db : Database) (parentId newId : Multihash) (header : BlockHeader) :
    db.createWritableNode parentId newId header = (none, db) ∨
      ∃ parent, db.getNode parentId = some parent ∧ (db.heap.cell parent).finalized = true ∧ db.getNode newId = none ∧
        db.createWritableNode parentId newId header = (some db.heap.size,
          { db with heap := db.heap.makeChild parent newId header, index := db.index ++ [db.heap.size] }) := by
  rw [createWritableNode]
  split
  · exact .inl rfl
  · rename_i parent found
    split_ifs with allowed
    · exact .inl rfl
    · rw [Bool.or_eq_true, Bool.not_eq_true', not_or, Bool.not_eq_false, not_isSome_iff_eq_none] at allowed
      exact .inr ⟨parent, found, allowed.1, allowed.2, rfl⟩

/-- A pending node is cloned under a new id, or nothing happens. -/
theorem cloneNode_cases (db : Database) (nodeId newId : Multihash) (header : BlockHeader) :
    db.cloneNode nodeId newId header = (.error .illegalArgument, db) ∨
      db.cloneNode nodeId newId header = (.ok none, db) ∧ (db.getNode newId).isSome ∨
      ∃ node, db.getNode nodeId = some node ∧ (db.heap.cell node).finalized = false ∧ db.getNode newId = none ∧
        db.cloneNode nodeId newId header = (.ok (some db.heap.size),
          { db with heap := db.heap.clone node newId header, index := db.index ++ [db.heap.size] }) := by
  rw [cloneNode]
  split
  · exact .inl rfl
  · rename_i node found
    split_ifs with done taken
    · exact .inl rfl
    · exact .inr (.inl ⟨rfl, taken⟩)
    · exact .inr (.inr ⟨node, found, Bool.eq_false_iff.mpr done, not_isSome_iff_eq_none.mp taken, rfl⟩)

namespace WellFormed

variable {db db' : Database}

theorem forkIds (wf : db.WellFormed) : db.ForkIds := fun id p entry => (wf.forks id p entry).2.1

variable {p : ℕ}

theorem mem_index_of_mem_forkList (wf : db.WellFormed) (fork : p ∈ db.forkList) : p ∈ db.index := by
  obtain ⟨id, entry⟩ := mem_forkList_iff.mp fork
  exact (wf.forks id p entry).1

theorem head_finalized (wf : db.WellFormed) : (db.heap.cell db.head).finalized = true :=
  (wf.forks _ _ wf.head_fork).2.2

theorem ne_root (wf : db.WellFormed) (pending : (db.heap.cell p).finalized = false) : p ≠ db.root := by
  rintro rfl
  exact absurd wf.tree.root_finalized (Bool.eq_false_iff.mp pending)

theorem getNode_iff (wf : db.WellFormed) {id : Multihash} : db.getNode id = some p ↔ p ∈ db.index ∧ db.heap.id p = id :=
  wf.tree.forest.getNode_eq_some_iff

/-- The parent of a new clone is there. -/
theorem clone_linked (wf : db.WellFormed) {id : Multihash} (found : db.getNode id = some p) (newId : Multihash)
    (header : BlockHeader) (q : ℕ) (up : ((db.heap.cell p).clone newId header).parent = some q) : q < db.heap.size :=
  (db.heap.descending p q up).trans (wf.tree.bound p (wf.getNode_iff.mp found).1)

theorem getNode_eq_none_iff {id : Multihash} : db.getNode id = none ↔ ∀ p ∈ db.index, db.heap.id p ≠ id := by
  simp [getNode]

/-- Fork heads survive when the tree keeps their nodes. -/
private theorem of_tree (wf : db.WellFormed) (tree : ForkTree db'.heap db'.index db'.root)
    (head : db'.head = db.head) (forkHeads : db'.forkHeads = db.forkHeads)
    (kept : ∀ p ∈ db.index, p ∈ db'.index ∧ db'.heap.id p = db.heap.id p ∧
      ((db.heap.cell p).finalized = true → (db'.heap.cell p).finalized = true)) : db'.WellFormed where
  tree := tree
  head_mem := head ▸ (kept _ wf.head_mem).1
  head_fork := by
    rw [head, forkHeads, (kept _ wf.head_mem).2.1]
    exact wf.head_fork
  forks id p entry := by
    rw [forkHeads] at entry
    obtain ⟨mem, named, done⟩ := wf.forks id p entry
    obtain ⟨mem', same, done'⟩ := kept p mem
    exact ⟨mem', same.trans named, done' done⟩

theorem openLockless (codec : KeyCodec) {backend : Backend} (synced : backend.Synced)
    (init : List (DatabaseKey × Bytes)) : (Database.openLockless codec backend init).WellFormed := by
  obtain ⟨root, frame, done, opened⟩ := openLockless_eq codec backend init
  have top : root.parent = none := frame.parent_eq
  have cell := Heap.cell_empty_push top
  have id : Heap.id (Heap.empty.push root) 0 = root.id := by rw [Heap.id, cell]
  rw [opened]
  constructor
  case tree =>
    refine .singleton top done frame.held_eq (frame.synced ?_)
    rintro b ⟨⟩
    exact synced
  case head_mem => exact List.mem_singleton_self 0
  case head_fork =>
    dsimp only
    rw [id]
    exact Std.ExtTreeMap.getElem?_insert_self
  case forks =>
    intro key p entry
    rw [getElem?_insert] at entry
    split_ifs at entry with same
    · cases entry
      exact ⟨List.mem_singleton_self 0, id.trans (same), by rw [cell]; exact done⟩
    · simp at entry

section

variable (wf : db.WellFormed)

include wf

/-- One node more in the tree. -/
private theorem of_push {d : StateDelta} (tree : ForkTree (db.heap.push d) (db.index ++ [db.heap.size]) db.root) :
    { db with heap := db.heap.push d, index := db.index ++ [db.heap.size] }.WellFormed := by
  refine wf.of_tree tree rfl rfl fun p known => ⟨List.mem_append_left _ known, ?_⟩
  rw [Heap.id, db.heap.cell_push_of_lt _ (wf.tree.bound p known)]
  exact ⟨rfl, id⟩

theorem createWritableNode (parentId newId : Multihash) (header : BlockHeader) :
    (db.createWritableNode parentId newId header).2.WellFormed := by
  rcases db.createWritableNode_cases parentId newId header with same | ⟨parent, found, done, fresh, made⟩
  · rwa [same]
  obtain ⟨mem, -⟩ := wf.getNode_iff.mp found
  have tree := wf.tree.push (d := (db.heap.cell parent).makeChild parent newId header) mem rfl rfl
    done (getNode_eq_none_iff.mp fresh) rfl (by rintro b ⟨⟩ disk stored; contradiction)
  rw [made]
  exact wf.of_push tree

theorem cloneNode (nodeId newId : Multihash) (header : BlockHeader) :
    (db.cloneNode nodeId newId header).2.WellFormed := by
  rcases db.cloneNode_cases nodeId newId header with same | ⟨same, -⟩ | ⟨node, found, pending, fresh, made⟩
  · rwa [same]
  · rwa [same]
  obtain ⟨mem, -⟩ := wf.getNode_iff.mp found
  obtain ⟨q, known, up, next, done⟩ := wf.tree.parents node mem (wf.ne_root pending)
  have synced : ((db.heap.cell node).clone newId header).Synced := by
    intro b stored
    obtain ⟨old, owned, rfl⟩ := map_eq_some_iff.mp stored
    exact wf.tree.synced node (wf.tree.bound node mem) old owned
  have tree := wf.tree.push (d := (db.heap.cell node).clone newId header) known up next done
    (getNode_eq_none_iff.mp fresh) (by rw [StateDelta.clone, isSome_map]; exact wf.tree.held node mem) synced
  rw [made]
  exact wf.of_push tree

/-- Object writes and new anonymous nodes. -/
theorem of_extends {heap : Heap} (extended : db.heap.Extends heap) : { db with heap }.WellFormed := by
  refine wf.of_tree (wf.tree.of_extends extended) rfl rfl (fun p mem => ?_)
  have frame := extended.frame p (wf.tree.bound p mem)
  exact ⟨mem, frame.id_eq, fun done => frame.finalized_eq.trans done⟩

theorem transact {codec : KeyCodec} {nodeId : Multihash} {calls : List NodeOp} {result : Except StateDbError Unit}
    (ran : db.transact codec nodeId calls = (result, db')) : db'.WellFormed := by
  obtain ⟨heap, extended, rfl⟩ := transact_eq ran
  exact wf.of_extends extended

/-- Every outcome of the head's choice is a finalized node, filed among the fork heads unless it is
the new node. -/
theorem headUpdate {algo : ForkResolution} {node head : ℕ} {forkHeads : ForkHeads} (mem : node ∈ db.index)
    (update : HeadUpdate algo db node head forkHeads) :
    head ∈ db.index ∧ (head = node ∨ forkHeads[db.heap.id head]? = some head) ∧
      ∀ id p, forkHeads[id]? = some p →
        p ∈ db.index ∧ db.heap.id p = id ∧ (db.heap.cell p).finalized = true := by
  cases update with
  | higher above => exact ⟨mem, .inl rfl, wf.forks⟩
  | lower | stays => exact ⟨wf.head_mem, .inr wf.head_fork, wf.forks⟩
  | takes level earlier compares signers => exact ⟨mem, .inl rfl, wf.forks⟩
  | best level burns signers fork other unbeaten up unbeating =>
    have entry := wf.forkIds.mem_forkList.mp fork
    exact ⟨(wf.forks _ _ entry).1, .inr entry, wf.forks⟩
  | fallback level burns signers up beats =>
    obtain ⟨known, -, done⟩ := wf.tree.parent_mem wf.head_mem up
    refine ⟨known, .inr Std.ExtTreeMap.getElem?_insert_self, ?_⟩
    intro id p entry
    rw [getElem?_insert] at entry
    split_ifs at entry with same
    · cases entry
      exact ⟨known, same, done⟩
    · rw [getElem?_erase] at entry
      split at entry
      · contradiction
      · exact wf.forks id p entry

theorem markFinalized (node : ℕ) : (db.markFinalized node).WellFormed := by
  refine wf.of_tree (wf.tree.finalize node) rfl rfl (fun p mem => ⟨mem, db.id_markFinalized node p, ?_⟩)
  exact fun done => (db.finalized_markFinalized node p).mpr (.inr done)

theorem parentId_eq_some_iff {q : ℕ} (mem : p ∈ db.index) (known : q ∈ db.index) :
    db.parentId p = some (db.heap.id q) ↔ (db.heap.cell p).parent = some q := by
  rw [Database.parentId, map_eq_some_iff]
  constructor
  · rintro ⟨r, up, same⟩
    rw [up, wf.tree.id_inj r (wf.tree.parent_mem mem up).1 q known same]
  · exact fun up => ⟨q, up, rfl⟩

theorem updateForkHeads {node head : ℕ} {forkHeads : ForkHeads}
    (mem : node ∈ db.index) (done : (db.heap.cell node).finalized = true) (head_mem : head ∈ db.index)
    (filed : head = node ∨ forkHeads[db.heap.id head]? = some head)
    (forks : ∀ id p, forkHeads[id]? = some p →
      p ∈ db.index ∧ db.heap.id p = id ∧ (db.heap.cell p).finalized = true) :
    ({ db with head, forkHeads }.updateForkHeads node).WellFormed := by
  have erased (id : Multihash) (p : ℕ)
      (entry : ((db.parentId node).elim forkHeads forkHeads.erase)[id]? = some p) :
      forkHeads[id]? = some p := by
    cases under : db.parentId node with
    | none => rwa [under] at entry
    | some parent =>
      rw [under, elim_some, getElem?_erase] at entry
      split at entry
      · contradiction
      · exact entry
  rw [Database.updateForkHeads]
  split_ifs with elsewhere
  · constructor
    case tree => exact wf.tree
    case head_mem => exact head_mem
    case head_fork =>
      change ((((db.parentId node).elim forkHeads forkHeads.erase).insert (db.heap.id node)
        node)[db.heap.id head]?) = some head
      rw [getElem?_insert]
      split
      · rename_i same
        rw [wf.tree.id_inj node mem head head_mem same]
      · rename_i other
        have filed := filed.resolve_left (fun same => other (same ▸ rfl))
        cases under : db.parentId node with
        | none => exact filed
        | some parent =>
          rw [elim_some, getElem?_erase, if_neg]
          · exact filed
          · rintro rfl
            exact elsewhere under
    case forks =>
      intro id p entry
      change (((db.parentId node).elim forkHeads forkHeads.erase).insert (db.heap.id node)
        node)[id]? = some p at entry
      rw [getElem?_insert] at entry
      split_ifs at entry with same
      · cases entry
        exact ⟨mem, same, done⟩
      · exact forks id p (erased id p entry)
  · rw [not_not] at elsewhere
    have up := (wf.parentId_eq_some_iff mem head_mem).mp elsewhere
    have other : head ≠ node := (db.heap.descending node head up).ne
    exact ⟨wf.tree, head_mem, filed.resolve_left other, forks⟩

theorem finalizeNode {algo : ForkResolution} {nodeId : Multihash}
    (success : db.finalizeNode algo nodeId = (.ok (), db')) : db'.WellFormed := by
  obtain ⟨node, found, head, forkHeads, update, rfl⟩ := finalizeNode_eq wf.forkIds success
  have mem := (wf.getNode_iff.mp found).1
  have marked := wf.markFinalized node
  obtain ⟨head_mem, filed, forks⟩ := marked.headUpdate mem update
  exact marked.updateForkHeads mem ((db.finalized_markFinalized node node).mpr (.inl rfl)) head_mem filed forks

end

end WellFormed

end Database

end Teleno.StateDb
