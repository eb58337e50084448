import Teleno.StateDb.ForkTree

/-! # Discarding a subtree

The remove queue walks the index by ids, level by level. On a forest whose ids are unique it visits
exactly the ids below the discarded node. When the head is among them the loop stops there, having
already forgotten the fork heads that precede it.
-/

namespace Teleno.StateDb

open Library List

/-- Indexed deltas whose parents are indexed, under one or more roots. -/
structure IndexForest (h : Heap) (index : List ℕ) : Prop where
  nodup : index.Nodup
  id_inj : ∀ p ∈ index, ∀ q ∈ index, h.id p = h.id q → p = q
  parents : ∀ p ∈ index, ∀ q, (h.cell p).parent = some q → q ∈ index ∧ h.revision p = h.revision q + 1

theorem ForkTree.forest {h : Heap} {index : List ℕ} {root : ℕ} (tree : ForkTree h index root) :
    IndexForest h index where
  nodup := tree.nodup
  id_inj := tree.id_inj
  parents _ mem _ up := ⟨(tree.parent_mem mem up).1, (tree.parent_mem mem up).2.1⟩

namespace IndexForest

variable {db : Database}

theorem getNode_eq_some_iff (forest : IndexForest db.heap db.index) {id : Multihash} {p : ℕ} :
    db.getNode id = some p ↔ p ∈ db.index ∧ db.heap.id p = id := by
  constructor
  · intro found
    exact ⟨mem_of_find?_eq_some found, by simpa using find?_some found⟩
  · rintro ⟨mem, rfl⟩
    cases found : db.getNode (db.heap.id p) with
    | none =>
      rw [Database.getNode, find?_eq_none] at found
      exact absurd (beq_self_eq_true _) (found p mem)
    | some q =>
      have same : db.heap.id q = db.heap.id p := by simpa using find?_some found
      rw [forest.id_inj q (mem_of_find?_eq_some found) p mem same]

theorem mem_childIds {id child : Multihash} : child ∈ db.childIds id ↔
    ∃ p ∈ db.index, db.parentId p = some id ∧ db.heap.id p = child := by
  simp [Database.childIds, and_assoc]

/-- Through ids the index is a forest graded by revision. -/
theorem isForest (forest : IndexForest db.heap db.index) : IsForest db.childIds
    (fun id => ((db.getNode id).map db.heap.revision).getD 0) (db.index.map db.heap.id) where
  closed id _ child listed := by
    obtain ⟨p, mem, -, rfl⟩ := mem_childIds.mp listed
    exact mem_map_of_mem mem
  graded id _ child listed := by
    obtain ⟨p, mem, under, rfl⟩ := mem_childIds.mp listed
    obtain ⟨q, up, rfl⟩ := Option.map_eq_some_iff.mp under
    obtain ⟨known, next⟩ := forest.parents p mem q up
    rw [forest.getNode_eq_some_iff.mpr ⟨mem, rfl⟩, forest.getNode_eq_some_iff.mpr ⟨known, rfl⟩]
    exact next
  nodup id _ := by
    refine (forest.nodup.filter _).map_on ?_
    intro p left q right same
    exact forest.id_inj p (mem_filter.mp left).1 q (mem_filter.mp right).1 same
  unique id _ id' _ child listed listed' := by
    obtain ⟨p, mem, under, rfl⟩ := mem_childIds.mp listed
    obtain ⟨p', mem', under', same⟩ := mem_childIds.mp listed'
    obtain rfl := forest.id_inj p' mem' p mem same
    exact Option.some.inj (under.symm.trans under')

/-- The ids reached from a node are those of the nodes whose path leads through it. -/
theorem exists_generation_iff (forest : IndexForest db.heap db.index) {s p : ℕ} (start : s ∈ db.index)
    (mem : p ∈ db.index) : (∃ depth, db.heap.id p ∈ generation db.childIds [db.heap.id s] depth) ↔
      s ∈ db.heap.path p := by
  constructor
  · rintro ⟨depth, reached⟩
    induction depth generalizing p with
    | zero =>
      obtain rfl := forest.id_inj p mem s start (mem_singleton.mp reached)
      exact db.heap.self_mem_path p
    | succ depth ih =>
      obtain ⟨id, earlier, listed⟩ := mem_flatMap.mp reached
      obtain ⟨p', mem', under, same⟩ := mem_childIds.mp listed
      obtain rfl := forest.id_inj p' mem' p mem same
      obtain ⟨q, up, rfl⟩ := Option.map_eq_some_iff.mp under
      exact db.heap.mem_path_iff.mpr (.inr ⟨q, up, ih (forest.parents p' mem q up).1 earlier⟩)
  · intro above
    induction p using db.heap.link_induction with
    | step p ih =>
      rcases db.heap.mem_path_iff.mp above with rfl | ⟨q, up, above⟩
      · exact ⟨0, mem_singleton_self _⟩
      · obtain ⟨depth, reached⟩ := ih q up (forest.parents p mem q up).1 above
        have under : db.parentId p = some (db.heap.id q) := by rw [Database.parentId, up, Option.map_some]
        exact ⟨depth + 1, mem_flatMap.mpr ⟨_, reached, mem_childIds.mpr ⟨p, mem, under, rfl⟩⟩⟩

end IndexForest

namespace Database

variable {db : Database}

/-- The loop follows the worklist until it meets the head. -/
theorem removeLoop_eq (headId : Multihash) (next : Multihash → List Multihash) (fuel : ℕ)
    (queue visited : List Multihash) (forkHeads : ForkHeads) (drained : drain? next fuel queue = some visited) :
    removeLoop headId next fuel queue forkHeads =
      if headId ∈ visited then (.error .cannotDiscard,
        (visited.takeWhile (fun id => decide (id ≠ headId))).foldl (fun m id => m.erase id) forkHeads)
      else (.ok visited, visited.foldl (fun m id => m.erase id) forkHeads) := by
  induction fuel generalizing queue visited forkHeads with
  | zero =>
    cases queue with
    | nil =>
      cases drained
      rfl
    | cons id queue => cases drained
  | succ fuel ih =>
    cases queue with
    | nil =>
      cases drained
      rfl
    | cons id queue =>
      obtain ⟨rest, later, rfl⟩ := Option.map_eq_some_iff.mp drained
      rw [removeLoop]
      rcases eq_or_ne id headId with rfl | other
      · simp
      · rw [if_neg other, ih _ _ _ later]
        by_cases reached : headId ∈ rest
        · simp [reached, other, Except.map]
        · simp [reached, other.symm, Except.map]

variable {s : ℕ} {whitelist : List Multihash}

/-- A whitelist that no child is on. -/
def Harmless (db : Database) (whitelist : List Multihash) : Prop :=
  ∀ id, ∀ child ∈ db.childIds id, child ∉ whitelist

theorem harmless_nil (db : Database) : db.Harmless [] := fun _ _ _ => not_mem_nil

private theorem filter_childIds (harmless : db.Harmless whitelist) :
    (fun id => (db.childIds id).filter (fun child => decide (child ∉ whitelist))) = db.childIds := by
  funext id
  exact filter_eq_self.mpr fun child listed => decide_eq_true (harmless id child listed)

/-- The outcome of the loop started at an indexed node. -/
private theorem removeLoop_childIds (forest : IndexForest db.heap db.index) (start : s ∈ db.index) :
    ∃ visited, (∀ p ∈ db.index, db.heap.id p ∈ visited ↔ s ∈ db.heap.path p) ∧
      (∀ id ∈ visited, ∃ p ∈ db.index, db.heap.id p = id) ∧
      (∀ y ∈ visited, ∀ x, x ∈ visited.takeWhile (fun id => decide (id ≠ y)) ↔
        Precedes db.childIds [db.heap.id s] x y) ∧
      drain? db.childIds db.index.length [db.heap.id s] = some visited := by
  have inside : db.heap.id s ∈ db.index.map db.heap.id := mem_map_of_mem start
  obtain ⟨depth, finished, drained⟩ := forest.isForest.drain?_eq inside
  rw [length_map] at drained
  refine ⟨levelOrder db.childIds [db.heap.id s] depth, ?_, ?_, ?_, drained⟩
  · intro p mem
    rw [← forest.exists_generation_iff start mem, mem_levelOrder]
    constructor
    · rintro ⟨i, -, reached⟩
      exact ⟨i, reached⟩
    · rintro ⟨i, reached⟩
      refine ⟨i, ?_, reached⟩
      by_contra late
      obtain ⟨extra, rfl⟩ := Nat.exists_eq_add_of_le (Nat.not_lt.mp late)
      rw [generation_eq_nil_of_add finished] at reached
      exact not_mem_nil reached
  · intro id reached
    obtain ⟨i, -, reached⟩ := mem_levelOrder.mp reached
    exact mem_map.mp (forest.isForest.generation_mem inside i id reached).1
  · intro y reached x
    exact forest.isForest.mem_takeWhile_iff inside reached

/-- The head is below the discarded node: nothing is removed, but the fork heads the queue has
passed are forgotten. -/
theorem discardNodeLockless_of_head_below (forest : IndexForest db.heap db.index) (start : s ∈ db.index)
    (harmless : db.Harmless whitelist) (inner : db.heap.id s ≠ db.heap.id db.root)
    (head : db.head ∈ db.index) (below : s ∈ db.heap.path db.head) :
    ∃ forkHeads : ForkHeads, db.discardNodeLockless (db.heap.id s) whitelist =
        (.error .cannotDiscard, { db with forkHeads }) ∧
      forkHeads[db.heap.id db.head]? = db.forkHeads[db.heap.id db.head]? ∧
      (∀ id, Precedes db.childIds [db.heap.id s] id (db.heap.id db.head) → forkHeads[id]? = none) ∧
      ∀ id, ¬ Precedes db.childIds [db.heap.id s] id (db.heap.id db.head) →
        forkHeads[id]? = db.forkHeads[id]? := by
  obtain ⟨visited, members, -, before, drained⟩ := removeLoop_childIds forest start
  have reached := (members db.head head).mpr below
  refine ⟨(visited.takeWhile (fun id => decide (id ≠ db.heap.id db.head))).foldl
    (fun m id => m.erase id) db.forkHeads, ?_, ?_, ?_, ?_⟩
  · simp only [discardNodeLockless, forest.getNode_eq_some_iff.mpr ⟨start, rfl⟩, if_neg inner,
      filter_childIds harmless, removeLoop_eq _ _ _ _ _ _ drained, if_pos reached]
  · rw [getElem?_foldl_erase, if_neg]
    intro listed
    simpa using mem_takeWhile_imp listed
  · intro id precedes
    rw [getElem?_foldl_erase, if_pos ((before _ reached id).mpr precedes)]
  · intro id later
    rw [getElem?_foldl_erase, if_neg (fun listed => later ((before _ reached id).mp listed))]

/-- The database without the nodes below `s`. -/
def without (db : Database) (s : ℕ) (forkHeads : ForkHeads) : Database :=
  { db with forkHeads, index := db.index.filter fun p => decide (s ∉ db.heap.path p) }

theorem mem_index_without {forkHeads : ForkHeads} {p : ℕ} :
    p ∈ (db.without s forkHeads).index ↔ p ∈ db.index ∧ s ∉ db.heap.path p := by
  simp [without]

/-- Among the nodes that stay, the parent of `s` is found by its id. -/
private theorem find?_parentId (forest : IndexForest db.heap db.index) {forkHeads : ForkHeads} {q : ℕ}
    (mem : q ∈ (db.without s forkHeads).index) (under : db.parentId s = some (db.heap.id q)) :
    (db.without s forkHeads).index.find? (fun p => some (db.heap.id p) == db.parentId s) = some q := by
  cases found : (db.without s forkHeads).index.find? (fun p => some (db.heap.id p) == db.parentId s) with
  | none => exact absurd (beq_iff_eq.mpr under.symm) (find?_eq_none.mp found q mem)
  | some r =>
    have same : (some (db.heap.id r) == db.parentId s) = true := by
      simpa only using find?_some found
    have known := (mem_index_without.mp (mem_of_find?_eq_some found)).1
    rw [forest.id_inj r known q (mem_index_without.mp mem).1 (Option.some.inj ((beq_iff_eq.mp same).trans under))]

/-- The fork heads of `db` without the entries of the nodes at and below `s`. -/
structure CutHeads (db : Database) (s : ℕ) (forkHeads : ForkHeads) : Prop where
  inside : ∀ p ∈ db.index, forkHeads[db.heap.id p]? =
    if s ∈ db.heap.path p then none else db.forkHeads[db.heap.id p]?
  outside : ∀ id, (∀ p ∈ db.index, db.heap.id p ≠ id) → forkHeads[id]? = db.forkHeads[id]?

/-- The head is elsewhere: the subtree leaves the index and the fork heads, and the parent of the
discarded node becomes a fork head if it has no other child. -/
theorem discardNodeLockless_of_head_elsewhere (forest : IndexForest db.heap db.index) (start : s ∈ db.index)
    (harmless : db.Harmless whitelist) (inner : db.heap.id s ≠ db.heap.id db.root) (head : db.head ∈ db.index)
    (elsewhere : s ∉ db.heap.path db.head) :
    ∃ forkHeads, db.CutHeads s forkHeads ∧
      ((∃ p ∈ (db.without s forkHeads).index, db.parentId p = db.parentId s) →
        db.discardNodeLockless (db.heap.id s) whitelist = (.ok (), db.without s forkHeads)) ∧
      ((∀ p ∈ (db.without s forkHeads).index, db.parentId p ≠ db.parentId s) →
        ∀ q ∈ (db.without s forkHeads).index, db.parentId s = some (db.heap.id q) →
          db.discardNodeLockless (db.heap.id s) whitelist =
            (.ok (), db.without s (forkHeads.insert (db.heap.id q) q))) := by
  obtain ⟨visited, members, indexed, -, drained⟩ := removeLoop_childIds forest start
  have unreached : db.heap.id db.head ∉ visited := fun reached => elsewhere ((members _ head).mp reached)
  have kept : db.index.filter (fun p => decide (db.heap.id p ∉ visited)) =
      db.index.filter (fun p => decide (s ∉ db.heap.path p)) :=
    filter_congr fun p mem => decide_eq_decide.mpr (not_congr (members p mem))
  refine ⟨visited.foldl (fun m id => m.erase id) db.forkHeads, ⟨?_, ?_⟩, ?_, ?_⟩
  · intro p mem
    rw [getElem?_foldl_erase]
    exact if_congr (members p mem) rfl rfl
  · intro id absent
    rw [getElem?_foldl_erase, if_neg]
    intro reached
    obtain ⟨p, mem, same⟩ := indexed id reached
    exact absent p mem same
  · rintro ⟨p, mem, sibling⟩
    have found : (db.index.filter fun p => decide (s ∉ db.heap.path p)).any
        (fun p => db.parentId p == db.parentId s) = true :=
      any_eq_true.mpr ⟨p, mem, beq_iff_eq.mpr sibling⟩
    simp only [discardNodeLockless, forest.getNode_eq_some_iff.mpr ⟨start, rfl⟩, if_neg inner,
      filter_childIds harmless, removeLoop_eq _ _ _ _ _ _ drained, if_neg unreached, kept]
    exact if_pos found
  · intro childless q mem under
    have none_found : ¬ (db.index.filter fun p => decide (s ∉ db.heap.path p)).any
        (fun p => db.parentId p == db.parentId s) = true := by
      rw [any_eq_true]
      rintro ⟨p, mem, sibling⟩
      exact childless p mem (beq_iff_eq.mp sibling)
    have found : (db.index.filter fun p => decide (s ∉ db.heap.path p)).find?
        (fun p => some (db.heap.id p) == db.parentId s) = some q := find?_parentId forest mem under
    simp only [discardNodeLockless, forest.getNode_eq_some_iff.mpr ⟨start, rfl⟩, if_neg inner,
      filter_childIds harmless, removeLoop_eq _ _ _ _ _ _ drained, if_neg unreached, kept]
    refine (if_neg none_found).trans ?_
    simp only [found]
    rfl

end Database

end Teleno.StateDb
