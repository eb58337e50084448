import Teleno.StateDb.Removal
import Teleno.StateDb.View

/-! # A property of every node's view

New nodes show what the node they come from shows, finalizing and discarding nodes changes no view,
and a commit that returns keeps the views of the nodes that stay. A property of views that every
node of a well-formed database has is therefore kept by all of them, and by writes to a writable node
that keep it there.
-/

namespace Teleno.StateDb

open Library

namespace Heap

/-- `h'` is `h` with more deltas. -/
structure Grows (h h' : Heap) : Prop where
  toExtends : h.Extends h'
  cell_eq : ∀ q < h.size, h'.cell q = h.cell q

namespace Grows

variable {h h' h'' : Heap} {p : ℕ}

theorem refl (h : Heap) : h.Grows h := ⟨.refl h, fun _ _ => rfl⟩

theorem trans (first : h.Grows h') (second : h'.Grows h'') : h.Grows h'' where
  toExtends := first.toExtends.trans second.toExtends
  cell_eq q below :=
    (second.cell_eq q (below.trans_le first.toExtends.size_le)).trans (first.cell_eq q below)

theorem makeChild (h : Heap) (p : ℕ) (id : Multihash) (header : BlockHeader) : h.Grows (h.makeChild p id header) :=
  ⟨.makeChild h p id header, fun _ below => h.cell_push_of_lt _ below⟩

/-- Rewriting a new delta. -/
theorem rewrites (grows : h.Grows h') (new : h.size ≤ p) (rewrites : h'.Rewrites p h'') : h.Grows h'' where
  toExtends := grows.toExtends.trans rewrites.toExtends
  cell_eq q below := (rewrites.others q (by omega)).trans (grows.cell_eq q below)

theorem find_eq (grows : h.Grows h') {q : ℕ} (below : q < h.size) : h'.find q = h.find q := by
  funext key
  exact h.find_congr h' (fun r mem => grows.cell_eq r ((h.le_of_mem_path mem).trans_lt below)) key

end Grows

/-- Lookups do not see whether a delta is finalized. -/
theorem find_modify_finalized (h : Heap) (node q : ℕ) {keeps} :
    Heap.find (h.modify node (fun d => { d with finalized := true }) keeps) q = h.find q := by
  funext key
  have same (d : StateDelta) (rest rest' : List StateDelta) (equal : findIn rest' key = findIn rest key) :
      findIn ({ d with finalized := true } :: rest') key = findIn (d :: rest) key := by
    rw [findIn_cons, findIn_cons, equal]
    rfl
  rw [find, find, LinkedStore.lineage, LinkedStore.lineage, h.path_modify rfl]
  induction h.path q with
  | nil => rfl
  | cons r rest ih =>
    rw [List.map_cons, List.map_cons, h.cell_modify]
    split_ifs with equal
    · exact same _ _ _ ih |>.trans (by rw [equal])
    · rw [findIn_cons, findIn_cons, ih]

end Heap

namespace Database

/-- A head that cannot be chosen stays. -/
theorem updateHead_error {algo : ForkResolution} {db db' : Database} {node : ℕ} {e : StateDbError}
    (err : db.updateHead algo node = (.error e, db')) : e = .internalError ∧ db' = db := by
  rw [updateHead] at err
  split at err
  · cases err
  · split at err
    · split at err
      · cases err
      · split at err
        · cases err
          exact ⟨rfl, rfl⟩
        · cases err
    · cases err

/-- An unfinalized node is above no other node. -/
theorem WellFormed.not_mem_path {db : Database} (wf : db.WellFormed) {p q : ℕ} (known : q ∈ db.index)
    (writable : (db.heap.cell p).finalized = false) (other : q ≠ p) : p ∉ db.heap.path q := by
  intro above
  have done := (wf.tree.of_mem_path known above other.symm).2
  rw [writable] at done
  contradiction

/-- Every indexed node of a well-formed database shows a view with the property. -/
structure EveryView (holds : View → Prop) (db : Database) : Prop where
  wf : db.WellFormed
  views : ∀ p ∈ db.index, holds (db.heap.find p)

namespace EveryView

variable {holds : View → Prop} {db db' : Database}

section

variable (every : db.EveryView holds)

include every

/-- Other fork heads and a smaller index. -/
theorem of_subset (wf : db'.WellFormed) (heap : db'.heap = db.heap)
    (subset : ∀ p ∈ db'.index, p ∈ db.index) : db'.EveryView holds where
  wf := wf
  views p mem := by
    rw [heap]
    exact every.views p (subset p mem)

/-- New deltas outside the index. -/
theorem grows {heap : Heap} (grows : db.heap.Grows heap) : { db with heap }.EveryView holds where
  wf := every.wf.of_extends grows.toExtends
  views p mem := by
    rw [grows.find_eq (every.wf.tree.bound p mem)]
    exact every.views p mem

/-- Rewriting an unfinalized node only changes what that node shows. -/
theorem rewrites {p : ℕ} (writable : (db.heap.cell p).finalized = false)
    {heap : Heap} (rewrites : db.heap.Rewrites p heap) (shown : holds (heap.find p)) :
    { db with heap }.EveryView holds where
  wf := every.wf.of_extends rewrites.toExtends
  views q mem := by
    rcases eq_or_ne q p with rfl | other
    · exact shown
    · change holds (heap.find q)
      rw [rewrites.find_of_not_mem (every.wf.not_mem_path mem writable other)]
      exact every.views q mem

/-- A new node that shows a view with the property. -/
private theorem push {d : StateDelta}
    (wf : Database.WellFormed { db with heap := db.heap.push d, index := db.index ++ [db.heap.size] })
    (shown : holds (Heap.find (db.heap.push d) db.heap.size)) :
    Database.EveryView holds { db with heap := db.heap.push d, index := db.index ++ [db.heap.size] } where
  wf := wf
  views p mem := by
    rcases List.mem_append.mp mem with old | new
    · change holds (Heap.find (db.heap.push d) p)
      rw [db.heap.find_push d (every.wf.tree.bound p old)]
      exact every.views p old
    · rw [List.mem_singleton.mp new]
      exact shown

theorem createWritableNode (parentId newId : Multihash) (header : BlockHeader) :
    (db.createWritableNode parentId newId header).2.EveryView holds := by
  have wf := every.wf.createWritableNode parentId newId header
  rcases db.createWritableNode_cases parentId newId header with same | ⟨parent, found, -, -, made⟩
  · rwa [same]
  rw [made] at wf ⊢
  obtain ⟨mem, -⟩ := every.wf.getNode_iff.mp found
  refine every.push wf ?_
  have same := db.heap.find_makeChild (every.wf.tree.bound parent mem) newId header
  rw [Heap.makeChild] at same
  rw [same]
  exact every.views parent mem

theorem cloneNode (nodeId newId : Multihash) (header : BlockHeader) :
    (db.cloneNode nodeId newId header).2.EveryView holds := by
  have wf := every.wf.cloneNode nodeId newId header
  rcases db.cloneNode_cases nodeId newId header with same | ⟨same, -⟩ | ⟨node, found, pending, -, made⟩
  · rwa [same]
  · rwa [same]
  rw [made] at wf ⊢
  obtain ⟨mem, -⟩ := every.wf.getNode_iff.mp found
  obtain ⟨q, known, up, -⟩ := every.wf.tree.parents node mem (every.wf.ne_root pending)
  refine every.push wf ?_
  have same := db.heap.find_clone up (every.wf.tree.bound q known) newId header
  rw [Heap.clone] at same
  rw [same]
  exact every.views node mem

theorem markFinalized (node : ℕ) : (db.markFinalized node).EveryView holds where
  wf := every.wf.markFinalized node
  views p mem := by
    rw [Database.markFinalized, Heap.find_modify_finalized]
    exact every.views p mem

end

variable {nodeId : Multihash}

/-- Whether the finalization returns or throws. -/
theorem finalizeNode {algo : ForkResolution} (every : db.EveryView holds) {result : Except StateDbError Unit}
    (ran : db.finalizeNode algo nodeId = (result, db')) : db'.EveryView holds := by
  cases result with
  | ok =>
    have wf := every.wf.finalizeNode ran
    obtain ⟨node, found, head, forkHeads, update, rfl⟩ := finalizeNode_eq every.wf.forkIds ran
    refine (every.markFinalized node).of_subset wf ?_ ?_
    · rw [updateForkHeads_heap]
    · intro p mem
      rwa [updateForkHeads_index] at mem
  | error e =>
    rw [Database.finalizeNode] at ran
    cases found : db.getNode nodeId with
    | none =>
      rw [found] at ran
      cases ran
      exact every
    | some node =>
      rw [found] at ran
      dsimp only at ran
      cases outcome : (db.markFinalized node).updateHead algo node with
      | mk result updated =>
        rw [outcome] at ran
        cases result with
        | ok => cases ran
        | error e' =>
          cases ran
          rw [(updateHead_error outcome).2]
          exact every.markFinalized node

/-- Whether the discard returns or throws. -/
theorem discardNode (every : db.EveryView holds) {result : Except StateDbError Unit}
    (ran : db.discardNode nodeId = (result, db')) : db'.EveryView holds := by
  have wf := every.wf.discardNode ran
  rcases every.wf.discardNode_cases ran with
    ⟨forkHeads, rfl, -⟩ | ⟨s, -, -, -, -, forkHeads, -, q, -, -, rfl | ⟨-, rfl⟩⟩
  · exact every.of_subset wf rfl (fun p mem => mem)
  all_goals exact every.of_subset wf rfl (fun p mem => (mem_index_without.mp mem).1)

theorem commitNode {crypto : Crypto} {accepted : Bool} (every : db.EveryView holds)
    (success : db.commitNode crypto nodeId accepted = (.ok (), db')) : db'.EveryView holds := by
  have wf := every.wf.commitNode success
  rcases every.wf.commitNode_cases success with
    rfl | ⟨n, mem, inner, -, b, new, h', -, committed, forkHeads, -, rfl⟩
  · exact every
  · refine ⟨wf, ?_⟩
    intro p kept
    obtain ⟨known, below⟩ := mem_index_without.mp kept
    have top := every.wf.tree.top_eq mem
    have rooted : db.heap.top n ∈ db.heap.path p := by
      rw [top]
      exact every.wf.tree.root_mem_path known
    have through : n ∈ db.heap.path p := by
      by_contra outside
      apply below
      have above := (committed.top_mem_path_iff (every.wf.parent_ne_none mem inner) rooted).mpr outside
      rwa [top] at above
    change holds (h'.find p)
    rw [funext fun key => committed.find_eq crypto through key]
    exact every.views p known

end EveryView

end Database

end Teleno.StateDb
