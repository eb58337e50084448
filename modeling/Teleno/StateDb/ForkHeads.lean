import Teleno.StateDb.Quiet

/-! # Fork heads as an antichain

A fork head is meant to be a finalized node without finalized children. With the `fifo` and
`blockTime` comparators this is what the fork heads are, so none is an ancestor of another. The
proof-of-burn comparator can put the parent of two dropped blocks back among the fork heads; from
then on an operation under one of those blocks may add a second fork head below that parent. The
fork heads stay an antichain as long as no operation works below a fork head in this way.
-/

namespace Teleno.StateDb

open Library Option Bool ForkHeads

namespace Database

/-- No fork head is a proper ancestor of the node. -/
def Unshadowed (db : Database) (q : ℕ) : Prop := ∀ p ∈ db.forkList, p ∈ db.heap.path q → p = q

/-- No fork head is a proper ancestor of another one. -/
def Antichain (db : Database) : Prop := ∀ q ∈ db.forkList, db.Unshadowed q

/-- Fork heads have no finalized children. -/
def Tips (db : Database) : Prop :=
  ∀ p ∈ db.forkList, ∀ c ∈ db.index, (db.heap.cell c).parent = some p → (db.heap.cell c).finalized = false

/-- The node to be finalized, or to be discarded as an only child, has a parent that is not below a
fork head. -/
def NoForkAbove (db : Database) : DbOp → Prop
  | .finalizeNode id => ∀ node ∈ db.getNode id, ∀ q ∈ (db.heap.cell node).parent, db.Unshadowed q
  | .discardNode id => ∀ node ∈ db.getNode id, ∀ q ∈ (db.heap.cell node).parent,
      (∀ p ∈ db.index, (db.heap.cell p).parent = some q → p = node) → db.Unshadowed q
  | _ => True

instance (db : Database) (q : ℕ) : Decidable (db.Unshadowed q) :=
  inferInstanceAs (Decidable (∀ p ∈ db.forkList, _ → _))

instance (db : Database) : (op : DbOp) → Decidable (db.NoForkAbove op)
  | .finalizeNode id => inferInstanceAs (Decidable (∀ node ∈ db.getNode id, ∀ q ∈ (db.heap.cell node).parent, _))
  | .discardNode id => inferInstanceAs (Decidable (∀ node ∈ db.getNode id, ∀ q ∈ (db.heap.cell node).parent, _ → _))
  | .createWritableNode .. | .cloneNode .. | .transact .. | .commitNode .. => .isTrue trivial

variable {db db' : Database} {op : DbOp}

namespace WellFormed

/-- Nodes below a fork head are reached through a finalized child of it. -/
theorem unshadowed_of_tips (wf : db.WellFormed) (tips : db.Tips) {q : ℕ} (mem : q ∈ db.index)
    (done : (db.heap.cell q).finalized = true) : db.Unshadowed q := by
  intro p fork above
  by_contra proper
  obtain ⟨c, below, up⟩ := db.heap.exists_link_of_mem_path above proper
  have open_ := tips p fork c (wf.tree.mem_of_mem_path mem below) up
  rcases eq_or_ne c q with rfl | inner
  · exact absurd (open_.symm.trans done) false_ne_true
  · exact absurd (open_.symm.trans (wf.tree.of_mem_path mem below inner).2) false_ne_true

theorem noForkAbove_of_tips (wf : db.WellFormed) (tips : db.Tips) (op : DbOp) : db.NoForkAbove op := by
  have parent {id : Multihash} {node q : ℕ} (found : db.getNode id = some node)
      (up : (db.heap.cell node).parent = some q) : db.Unshadowed q := by
    obtain ⟨known, -, done⟩ := wf.tree.parent_mem (wf.getNode_iff.mp found).1 up
    exact wf.unshadowed_of_tips tips known done
  cases op with
  | finalizeNode id => exact fun node found q up => parent found up
  | discardNode id => exact fun node found q up _ => parent found up
  | createWritableNode | cloneNode | transact | commitNode => trivial

end WellFormed

namespace Quiet

theorem mem_path (quiet : db.Quiet op db') (wf : db.WellFormed) {p r : ℕ} (mem : p ∈ db.index)
    (above : r ∈ db'.heap.path p) : r ∈ db.heap.path p := by
  induction p using db'.heap.link_induction with
  | step p ih =>
    rcases db'.heap.mem_path_iff.mp above with rfl | ⟨q, linked, above⟩
    · exact db.heap.self_mem_path r
    · have up := quiet.parents p mem q linked
      exact db.heap.mem_path_iff.mpr (.inr ⟨q, up, ih q linked (wf.tree.parent_mem mem up).1 above⟩)

theorem tips (quiet : db.Quiet op db') (tips : db.Tips) : db'.Tips := by
  intro p fork c mem up
  by_contra done
  rw [not_eq_false] at done
  obtain ⟨known, done, -⟩ := quiet.blocks c mem done
  obtain ⟨id, entry⟩ := mem_forkList_iff.mp fork
  rcases quiet.forks id p entry with old | ⟨-, -, -, -, -, childless⟩
  · have open_ := tips p (mem_forkList_iff.mpr ⟨id, old⟩) c known (quiet.parents c known p up)
    exact absurd (open_.symm.trans done) false_ne_true
  · exact childless c mem up

theorem antichain (quiet : db.Quiet op db') (wf : db.WellFormed) (wf' : db'.WellFormed) (old : db.Antichain)
    (clear : db.NoForkAbove op) : db'.Antichain := by
  intro q below p fork above
  obtain ⟨id, entry⟩ := mem_forkList_iff.mp fork
  rcases quiet.forks id p entry with before | ⟨-, -, -, -, -, childless⟩
  · have fork := mem_forkList_iff.mpr ⟨id, before⟩
    obtain ⟨id', entry'⟩ := mem_forkList_iff.mp below
    rcases quiet.forks id' q entry' with before' | ⟨s, mem, rfl, up, only, -⟩
    · have below := mem_forkList_iff.mpr ⟨id', before'⟩
      exact old q below p fork (quiet.mem_path wf (wf.mem_index_of_mem_forkList below) above)
    · refine clear s (wf.getNode_iff.mpr ⟨mem, rfl⟩) q up only p fork ?_
      exact quiet.mem_path wf (wf.tree.parent_mem mem up).1 above
  · by_contra proper
    obtain ⟨c, between, up⟩ := db'.heap.exists_link_of_mem_path above proper
    have known := wf'.tree.mem_of_mem_path (wf'.mem_index_of_mem_forkList below) between
    exact childless c known up

end Quiet

section Finalize

variable {algo : ForkResolution} {node q : ℕ}

variable {p : ℕ}

/-- The fork heads after `updateForkHeads`: the new one, and the old ones without its parent. -/
theorem mem_forkList_updateForkHeads (named : db.ForkIds) (fork : p ∈ (db.updateForkHeads node).forkList) :
    p ∈ db.forkList ∧ (db.parentId node ≠ some (db.heap.id db.head) → db.parentId node ≠ some (db.heap.id p)) ∨
      p = node ∧ db.parentId node ≠ some (db.heap.id db.head) := by
  obtain ⟨id, entry⟩ := mem_forkList_iff.mp fork
  rw [updateForkHeads] at entry
  split at entry
  · rename_i elsewhere
    rw [getElem?_insert] at entry
    split at entry
    · cases entry
      exact .inr ⟨rfl, elsewhere⟩
    · cases under : db.parentId node with
      | none =>
        rw [under] at entry
        exact .inl ⟨mem_forkList_iff.mpr ⟨id, entry⟩, fun _ => (some_ne_none _).symm⟩
      | some parent =>
        rw [under, elim_some, getElem?_erase] at entry
        split at entry
        · contradiction
        · rename_i other
          refine .inl ⟨mem_forkList_iff.mpr ⟨id, entry⟩, fun _ same => other ?_⟩
          exact (some.inj same).trans (named id p entry)
  · rename_i onHead
    exact .inl ⟨mem_forkList_iff.mpr ⟨id, entry⟩, fun elsewhere => absurd elsewhere onHead⟩

/-- Entries other than the parent's survive `updateForkHeads`, and the node gets one. -/
theorem updateForkHeads_of_elsewhere (elsewhere : db.parentId node ≠ some (db.heap.id db.head)) :
    (db.updateForkHeads node).forkHeads[db.heap.id node]? = some node ∧
      ∀ id : Multihash, db.heap.id node ≠ id → db.parentId node ≠ some id →
        (db.updateForkHeads node).forkHeads[id]? = db.forkHeads[id]? := by
  rw [updateForkHeads, if_pos elsewhere]
  refine ⟨Std.ExtTreeMap.getElem?_insert_self, fun id other notParent => ?_⟩
  rw [getElem?_insert, if_neg other]
  cases under : db.parentId node with
  | none => rfl
  | some parent =>
    rw [elim_some, getElem?_erase, if_neg]
    rintro rfl
    exact notParent under

/-- A leaf may replace its parent among the fork heads if no other one is above that parent. -/
theorem antichain_updateForkHeads (named : db.ForkIds) (old : db.Antichain)
    (up : (db.heap.cell node).parent = some q) (clear : db.Unshadowed q)
    (leaf : ∀ p ∈ db.forkList, node ∈ db.heap.path p → node = p) : (db.updateForkHeads node).Antichain := by
  have under : db.parentId node = some (db.heap.id q) := by rw [parentId, up, map_some]
  intro r listed' p listed above
  rw [updateForkHeads_heap] at above
  rcases mem_forkList_updateForkHeads named listed with ⟨fork, kept⟩ | ⟨rfl, -⟩ <;>
    rcases mem_forkList_updateForkHeads named listed' with ⟨below, -⟩ | ⟨rfl, elsewhere⟩
  · exact old r below p fork above
  · by_contra proper
    obtain rfl := clear p fork (db.heap.mem_path_link up above proper)
    exact kept elsewhere under
  · exact leaf r below above
  · rfl

variable {head : ℕ} {forkHeads : ForkHeads}

/-- Choosing the head leaves an antichain that does not reach above the node's parent. -/
theorem WellFormed.antichain_headUpdate (wf : db.WellFormed) (old : db.Antichain) (mem : node ∈ db.index)
    (up : (db.heap.cell node).parent = some q) (clear : db.Unshadowed q)
    (update : HeadUpdate algo db node head forkHeads) :
    { db with head, forkHeads }.Antichain ∧ { db with head, forkHeads }.Unshadowed q := by
  cases update with
  | higher | lower | stays | takes | best => exact ⟨old, clear⟩
  | fallback level burns signers up' beats =>
    obtain ⟨known, next, -⟩ := wf.tree.parent_mem wf.head_mem up'
    obtain ⟨known', next', -⟩ := wf.tree.parent_mem mem up
    have split {p : ℕ} (listed : p ∈ { db with
          head
          forkHeads := (db.forkHeads.erase (db.heap.id db.head)).insert (db.heap.id head) head }.forkList) :
        p = head ∨ p ∈ db.forkList ∧ db.heap.id p ≠ db.heap.id db.head := by
      obtain ⟨id, entry⟩ := mem_forkList_iff.mp listed
      rw [getElem?_insert] at entry
      split at entry
      · cases entry
        exact .inl rfl
      · rw [getElem?_erase] at entry
        split at entry
        · contradiction
        · rename_i other
          exact .inr ⟨mem_forkList_iff.mpr ⟨id, entry⟩, fun same => other (same ▸ wf.forkIds id p entry)⟩
    constructor
    · intro r listed' p listed above
      rcases split listed with rfl | ⟨fork, other⟩ <;> rcases split listed' with rfl | ⟨below, other'⟩
      · rfl
      · by_contra proper
        have lower := (wf.tree.of_mem_path (wf.mem_index_of_mem_forkList below) above proper).1
        have beaten := Heap.priorityAlgorithm_iff.mp (beats r below other')
        omega
      · have higher : p ∈ db.heap.path db.head := db.heap.mem_path_iff.mpr (.inr ⟨r, up', above⟩)
        obtain rfl := old db.head (wf.forkIds.mem_forkList.mpr wf.head_fork) p fork higher
        exact absurd rfl other
      · exact old r below p fork above
    · intro p listed above
      rcases split listed with rfl | ⟨fork, -⟩
      · by_contra proper
        have lower := (wf.tree.of_mem_path known' above proper).1
        omega
      · exact clear p fork above

/-- With a fork head above the node's parent, that parent does not become the head and the fork head
stays. -/
theorem WellFormed.headUpdate_of_shadowed (wf : db.WellFormed) (old : db.Antichain) (mem : node ∈ db.index)
    (up : (db.heap.cell node).parent = some q) (fork : p ∈ db.forkList) (above : p ∈ db.heap.path q) (proper : p ≠ q)
    (update : HeadUpdate algo db node head forkHeads) : q ≠ head ∧ forkHeads[db.heap.id p]? = some p := by
  obtain ⟨known, next, -⟩ := wf.tree.parent_mem mem up
  have entry := wf.forkIds.mem_forkList.mp fork
  have lower := (wf.tree.of_mem_path known above proper).1
  cases update with
  | higher | takes => exact ⟨(db.heap.descending _ q up).ne, entry⟩
  | lower below | stays below =>
    refine ⟨?_, entry⟩
    rintro rfl
    omega
  | best level burns signers best_fork =>
    refine ⟨?_, entry⟩
    rintro rfl
    exact proper (old _ best_fork p fork above)
  | fallback level burns signers up' beats =>
    have notHead : db.heap.id db.head ≠ db.heap.id p := by
      intro same
      rw [wf.tree.id_inj _ wf.head_mem p (wf.mem_index_of_mem_forkList fork) same] at level
      omega
    constructor
    · rintro rfl
      have higher : p ∈ db.heap.path db.head := db.heap.mem_path_iff.mpr (.inr ⟨q, up', above⟩)
      exact notHead (old _ (wf.forkIds.mem_forkList.mpr wf.head_fork) p fork higher ▸ rfl)
    · rw [getElem?_insert]
      split_ifs with same
      · rw [wf.tree.id_inj _ (wf.tree.parent_mem wf.head_mem up').1 p (wf.mem_index_of_mem_forkList fork) same]
      · rw [getElem?_erase, if_neg notHead, entry]

variable {nodeId : Multihash} (wf : db.WellFormed) (success : db.finalizeNode algo nodeId = (.ok (), db'))
  (once : ∀ p, db.getNode nodeId = some p → (db.heap.cell p).finalized = false)

include wf success once

theorem WellFormed.antichain_finalizeNode (old : db.Antichain) (clear : db.NoForkAbove (.finalizeNode nodeId)) :
    db'.Antichain := by
  obtain ⟨node, found, head, forkHeads, update, rfl⟩ := finalizeNode_eq wf.forkIds success
  have mem := (wf.getNode_iff.mp found).1
  have marked := wf.markFinalized node
  have inner : node ≠ db.root := by
    rintro rfl
    exact absurd ((once _ found).symm.trans wf.tree.root_finalized) false_ne_true
  obtain ⟨q, -, up, -⟩ := wf.tree.parents node mem inner
  have up' := (db.parent_markFinalized node node).trans up
  have same (q : ℕ) : (db.markFinalized node).Unshadowed q ↔ db.Unshadowed q := by
    simp only [Unshadowed, path_markFinalized]
    rfl
  obtain ⟨chosen, clear'⟩ := marked.antichain_headUpdate (fun q fork => (same q).mpr (old q fork)) mem up'
    ((same q).mpr (clear node found q up)) update
  obtain ⟨-, -, forks⟩ := marked.headUpdate mem update
  refine antichain_updateForkHeads (fun id p entry => (forks id p entry).2.1) chosen up' clear' ?_
  intro p fork above
  obtain ⟨id, entry⟩ := mem_forkList_iff.mp fork
  by_contra proper
  have done := (wf.tree.of_mem_path (forks id p entry).1 (db.path_markFinalized node p ▸ above) proper).2
  exact absurd ((once _ found).symm.trans done) false_ne_true

omit once in
/-- Finalizing a node whose parent is below a fork head puts two comparable nodes among the fork
heads. -/
theorem WellFormed.not_antichain_finalizeNode (old : db.Antichain) (found : db.getNode nodeId = some node)
    (up : (db.heap.cell node).parent = some q) (fork : p ∈ db.forkList)
    (above : p ∈ db.heap.path q) (proper : p ≠ q) : ¬ db'.Antichain := by
  obtain ⟨node', found', head, forkHeads, update, rfl⟩ := finalizeNode_eq wf.forkIds success
  obtain rfl := some.inj (found.symm.trans found')
  have mem := (wf.getNode_iff.mp found).1
  have marked := wf.markFinalized node
  have up' := (db.parent_markFinalized node node).trans up
  have known' := wf.mem_index_of_mem_forkList fork
  have below : p ∈ db.heap.path node := db.heap.mem_path_iff.mpr (.inr ⟨q, up, above⟩)
  have notNode : p ≠ node :=
    ((db.heap.le_of_mem_path above).trans_lt (db.heap.descending node q up)).ne
  have old' : (db.markFinalized node).Antichain := by
    intro r fork' p fork above
    exact old r fork' p fork (db.path_markFinalized node r ▸ above)
  obtain ⟨notHead, entry⟩ := marked.headUpdate_of_shadowed old' mem up' fork
    ((db.path_markFinalized node q).symm ▸ above) proper update
  have elsewhere : { db.markFinalized node with head, forkHeads : Database }.parentId node ≠
      some ((db.markFinalized node).heap.id head) := by
    intro onHead
    have up'' := (marked.parentId_eq_some_iff mem (marked.headUpdate mem update).1).mp onHead
    exact notHead (some.inj (up'.symm.trans up''))
  obtain ⟨filed, kept⟩ := updateForkHeads_of_elsewhere elsewhere
  intro antichain
  refine notNode (antichain node (mem_forkList_iff.mpr ⟨_, filed⟩) p
    (mem_forkList_iff.mpr ⟨(db.markFinalized node).heap.id p, ?_⟩) ?_)
  · refine (kept _ ?_ ?_).trans entry
    · exact fun same => notNode (marked.tree.id_inj node mem p known' same).symm
    · intro same
      have up'' := (marked.parentId_eq_some_iff mem known').mp same
      exact proper (some.inj (up''.symm.trans up'))
  · rw [updateForkHeads_heap]
    exact (db.path_markFinalized node node).symm ▸ below

/-- Without proof-of-burn the head never moves back, so the node always replaces its parent. -/
theorem WellFormed.tips_finalizeNode (tips : db.Tips) (other : algo ≠ .pob) : db'.Tips := by
  obtain ⟨node, found, head, forkHeads, update, rfl⟩ := finalizeNode_eq wf.forkIds success
  have mem := (wf.getNode_iff.mp found).1
  have marked := wf.markFinalized node
  obtain ⟨head_mem, -, forks⟩ := marked.headUpdate mem update
  have named : { db.markFinalized node with head, forkHeads : Database }.ForkIds :=
    fun id p entry => (forks id p entry).2.1
  obtain ⟨rfl, reaches⟩ : forkHeads = db.forkHeads ∧ db.heap.revision node ≤ db.heap.revision head := by
    cases update with
    | higher | takes => exact ⟨rfl, le_rfl⟩
    | lower below => exact ⟨rfl, by simpa using below.le⟩
    | stays level => exact ⟨rfl, by simpa using level.le⟩
    | best _ burns | fallback _ burns => exact absurd burns other
  have elsewhere : (db.markFinalized node).parentId node ≠ some ((db.markFinalized node).heap.id head) := by
    intro onHead
    have up := (marked.parentId_eq_some_iff mem head_mem).mp onHead
    rw [parent_markFinalized] at up
    have next := (wf.tree.parent_mem mem up).2.1
    omega
  intro p fork c known up
  rw [updateForkHeads_index] at known
  rw [updateForkHeads_heap, parent_markFinalized] at up
  by_contra done
  rw [not_eq_false, updateForkHeads_heap, finalized_markFinalized] at done
  rcases mem_forkList_updateForkHeads named fork with ⟨fork, kept⟩ | ⟨rfl, -⟩
  · rcases done with rfl | done
    · refine kept elsewhere ?_
      rw [parentId, parent_markFinalized, up, map_some]
    · exact absurd ((tips p fork c known up).symm.trans done) false_ne_true
  · exact absurd ((once _ found).symm.trans (wf.tree.parent_mem known up).2.2) false_ne_true

end Finalize

/-- Discarding an only child whose parent is below a fork head makes that parent a fork head too. -/
theorem WellFormed.not_antichain_discardNode (wf : db.WellFormed) (old : db.Antichain) {s q p : ℕ} (mem : s ∈ db.index)
    (up : (db.heap.cell s).parent = some q) (only : ∀ p ∈ db.index, (db.heap.cell p).parent = some q → p = s)
    (fork : p ∈ db.forkList) (above : p ∈ db.heap.path q) (proper : p ≠ q) {result : Except StateDbError Unit}
    (ran : db.discardNode (db.heap.id s) = (result, db')) : ¬ db'.Antichain := by
  have inner : s ≠ db.root := by
    rintro rfl
    exact absurd (wf.tree.root_parent.symm.trans up) (some_ne_none q).symm
  obtain ⟨known, outside⟩ := wf.parent_kept mem up
  have elsewhere : s ∉ db.heap.path db.head := by
    intro below
    have through : q ∈ db.heap.path db.head :=
      db.heap.mem_path_trans (db.heap.mem_path_iff.mpr (.inr ⟨q, up, db.heap.self_mem_path q⟩)) below
    obtain rfl := old _ (wf.forkIds.mem_forkList.mpr wf.head_fork) p fork (db.heap.mem_path_trans above through)
    exact proper (db.heap.mem_path_antisymm through above)
  have kept : s ∉ db.heap.path p := fun below => outside (db.heap.mem_path_trans below above)
  have known' := wf.mem_index_of_mem_forkList fork
  obtain ⟨forkHeads, ⟨inside, -⟩, q', -, up', ⟨⟨c, found, notBelow, under⟩, -⟩ | ⟨-, success⟩⟩ :=
    wf.discardNode_eq mem inner elsewhere
  · obtain rfl := some.inj (up.symm.trans up')
    obtain rfl := only c found under
    exact absurd (db.heap.self_mem_path c) notBelow
  · obtain rfl := some.inj (up.symm.trans up')
    rw [success] at ran
    cases ran
    intro antichain
    refine proper (antichain q (mem_forkList_iff.mpr ⟨db.heap.id q, ?_⟩) p
      (mem_forkList_iff.mpr ⟨db.heap.id p, ?_⟩) above)
    · exact Std.ExtTreeMap.getElem?_insert_self
    · have other : db.heap.id q ≠ db.heap.id p := fun same =>
        proper (wf.tree.id_inj q known p known' same).symm
      rw [Database.without, getElem?_insert, if_neg other, inside p known', if_neg kept]
      exact wf.forkIds.mem_forkList.mp fork

/-- A step keeps the fork heads an antichain exactly if it does not work below one of them. -/
theorem WellFormed.antichain_step_iff {codec : KeyCodec} {crypto : Crypto} {algo : ForkResolution} (wf : db.WellFormed)
    (moves : Step codec crypto algo db op db') (old : db.Antichain) : db'.Antichain ↔ db.NoForkAbove op := by
  by_cases finalizes : ∃ id, op = .finalizeNode id
  · obtain ⟨id, rfl⟩ := finalizes
    cases moves with
    | throws _ _ once => exact absurd rfl (once id)
    | returns success once =>
      refine ⟨fun antichain node found q up p fork above => ?_, wf.antichain_finalizeNode success (once id rfl) old⟩
      by_contra proper
      exact wf.not_antichain_finalizeNode success old found up fork above proper antichain
  · have quiet := wf.quiet_of_step moves (fun id same => finalizes ⟨id, same⟩)
    refine ⟨fun antichain => ?_, quiet.antichain wf (wf.step moves) old⟩
    cases op with
    | createWritableNode | cloneNode | transact | commitNode => trivial
    | finalizeNode id => exact absurd ⟨id, rfl⟩ finalizes
    | discardNode id =>
      intro node found q up only p fork above
      obtain ⟨mem, rfl⟩ := wf.getNode_iff.mp found
      by_contra proper
      cases moves with
      | returns ran | throws ran =>
        exact wf.not_antichain_discardNode old mem up only fork above proper ran antichain

theorem WellFormed.tips_step {codec : KeyCodec} {crypto : Crypto} {algo : ForkResolution} (wf : db.WellFormed)
    (moves : Step codec crypto algo db op db') (tips : db.Tips) (other : algo ≠ .pob) : db'.Tips := by
  by_cases finalizes : ∃ id, op = .finalizeNode id
  · obtain ⟨id, rfl⟩ := finalizes
    cases moves with
    | returns success once => exact wf.tips_finalizeNode success (once id rfl) tips other
    | throws _ _ once => exact absurd rfl (once id)
  · exact (wf.quiet_of_step moves (fun id same => finalizes ⟨id, same⟩)).tips tips

/-- The root of an opened database is its only fork head. -/
theorem tips_openLockless (codec : KeyCodec) (backend : Backend) (init : List (DatabaseKey × Bytes)) :
    (openLockless codec backend init).Antichain ∧ (openLockless codec backend init).Tips := by
  have only {p : ℕ} (fork : p ∈ (openLockless codec backend init).forkList) : p = 0 := by
    obtain ⟨root, -, -, opened⟩ := openLockless_eq codec backend init
    obtain ⟨id, entry⟩ := mem_forkList_iff.mp fork
    rw [opened, getElem?_insert] at entry
    split at entry
    · exact (some.inj entry).symm
    · simp at entry
  constructor
  · intro q below p fork _
    rw [only fork, only below]
  · intro p fork c mem up
    rw [List.mem_singleton.mp mem, only fork] at up
    exact absurd ((openLockless codec backend init).heap.descending 0 0 up) (Nat.lt_irrefl 0)

/-- In every run whose proof-of-burn steps do not work below a fork head, no fork head is ever a
proper ancestor of another. The `fifo` and `blockTime` comparators need no such condition. -/
theorem reachable_forkHeads_antichain (codec : KeyCodec) (crypto : Crypto) (algo : ForkResolution)
    (db : Database) (reached : (databaseMachine codec crypto algo).Reachable
      (fun db op => algo = .pob → db.NoForkAbove op) db) :
    ∀ p ∈ db.forkList, ∀ q ∈ db.forkList, p ∈ db.heap.path q → p = q := by
  have invariant : db.WellFormed ∧ db.Antichain ∧ (algo ≠ .pob → db.Tips) := by
    refine reached.invariant (motive := fun db => db.WellFormed ∧ db.Antichain ∧ (algo ≠ .pob → db.Tips)) ?_ ?_
    · rintro db ⟨backend, init, synced, rfl⟩
      obtain ⟨antichain, tips⟩ := tips_openLockless codec backend init
      exact ⟨.openLockless codec synced init, antichain, fun _ => tips⟩
    · rintro db op db' ⟨wf, antichain, tips⟩ guarded moves
      have clear : db.NoForkAbove op := by
        by_cases burns : algo = .pob
        · exact guarded burns
        · exact wf.noForkAbove_of_tips (tips burns) op
      exact ⟨wf.step moves, (wf.antichain_step_iff moves antichain).mpr clear,
        fun other => wf.tips_step moves (tips other) other⟩
  exact fun p fork q below above => invariant.2.1 q below p fork above

/-- One signer's two blocks on the root make the root the head and a fork head again; a block on the
first of them then becomes a fork head below it. -/
theorem forkHeads_not_antichain :
    ∃ db, openEmpty.run .transparent .transparent .pob [
        .createWritableNode .zero [1] { timestamp := 10, signer := [7] }, .finalizeNode [1],
        .createWritableNode .zero [2] { timestamp := 20, signer := [7] }, .finalizeNode [2],
        .createWritableNode [1] [3] { timestamp := 30, signer := [8] }, .finalizeNode [3]] = some db ∧
      (databaseMachine .transparent .transparent .pob).Reachable (fun _ _ => True) db ∧
      ∃ p ∈ db.forkList, ∃ q ∈ db.forkList, p ∈ db.heap.path q ∧ p ≠ q :=
  exists_run (by decide)

/-- Two signers' blocks on the root and a block on the first of them. -/
def twoForks : List DbOp := [
  .createWritableNode .zero [1] { timestamp := 10, signer := [7] }, .finalizeNode [1],
  .createWritableNode .zero [2] { timestamp := 20, signer := [8] }, .finalizeNode [2],
  .createWritableNode [1] [3] { timestamp := 30, signer := [8] }, .finalizeNode [3]]

theorem reachable_forkHeads_antichain_of_twoForks :
    ∃ db, openEmpty.run .transparent .transparent .pob twoForks = some db ∧
      db.forkList.map db.heap.id = [[2], [3]] ∧
      ∀ p ∈ db.forkList, ∀ q ∈ db.forkList, p ∈ db.heap.path q → p = q := by
  have ran : (openEmpty.run .transparent .transparent .pob twoForks).any
      (fun db => decide (db.forkList.map db.heap.id = [[2], [3]])) = true := by decide
  have clear : openEmpty.admits .transparent .transparent .pob (fun db op => decide (db.NoForkAbove op))
      twoForks = true := by decide
  obtain ⟨db, ran, ids⟩ := exists_of_any ran
  refine ⟨db, ran, ids, reachable_forkHeads_antichain .transparent .transparent .pob db ?_⟩
  exact reachable_of_admitted_run (fun _ _ passed _ => of_decide_eq_true passed) (openEmpty_reachable .pob) clear ran

end Database

end Teleno.StateDb
