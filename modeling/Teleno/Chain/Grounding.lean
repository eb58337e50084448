import Teleno.StateDb.EveryView
import Teleno.Chain.TransactionRun

/-! # The nodes of a transaction

A transaction runs on a node made from the block's node, and is committed by squashing it. Whatever its
operations do, if they leave the nodes below the current one alone, then so does the whole phase seen from the
block's node, whether it stays on the transaction's node or goes back.
-/

namespace Teleno.Chain

open Library StateDb Exec Heap

variable {σ : Type}

/-- Nodes below the current one stay as they are, and the current node is not replaced by one of them. -/
structure Grounded (w w' : World σ) : Prop where
  grown : w.heap.Extends w'.heap
  bound : w.stateNode < w.heap.size → w'.stateNode < w'.heap.size
  above : w.stateNode < w.heap.size → w.stateNode ≤ w'.stateNode
  below : w.stateNode < w.heap.size → ∀ q < w.stateNode, w'.heap.cell q = w.heap.cell q

theorem Grounded.of_eq {w w' : World σ} (heap : w'.heap = w.heap) (stateNode : w'.stateNode = w.stateNode) :
    Grounded w w' where
  grown := heap ▸ .refl _
  bound := by rw [heap, stateNode]; exact id
  above _ := stateNode.ge
  below _ q _ := by rw [heap]

instance : IsPreorder (World σ) Grounded where
  refl _ := .of_eq rfl rfl
  trans := by
    intro w w' w'' first second
    refine ⟨first.grown.trans second.grown, second.bound ∘ first.bound, ?_, ?_⟩
    · intro bound
      exact (first.above bound).trans (second.above (first.bound bound))
    · intro bound q lower
      have above := first.above bound
      rw [second.below (first.bound bound) q (by omega), first.below bound q lower]

namespace World

variable {w : World σ}

section

variable (bound : w.stateNode < w.heap.size)

include bound

theorem size_onTransactionNode : w.onTransactionNode.heap.size = w.heap.size + 1 := by
  apply w.heap.size_push
  rintro _ ⟨⟩
  exact bound

theorem cell_onTransactionNode :
    w.onTransactionNode.heap.cell w.heap.size = (w.heap.cell w.stateNode).makeChild w.stateNode [] {} := by
  have linked : ∀ j, ((w.heap.cell w.stateNode).makeChild w.stateNode [] {}).parent = some j → j < w.heap.size := by
    rintro _ ⟨⟩
    exact bound
  have cell := w.heap.cell_push linked w.heap.size
  rw [if_pos rfl] at cell
  exact cell

/-- The transaction's node hangs from the block's node. -/
theorem parent_onTransactionNode : (w.onTransactionNode.heap.cell w.heap.size).parent = some w.stateNode := by
  rw [cell_onTransactionNode bound]
  rfl

theorem held_onTransactionNode : (w.onTransactionNode.heap.cell w.heap.size).backend.isSome := by
  rw [cell_onTransactionNode bound]
  rfl

/-- The transaction's node shows what the block's node shows. -/
theorem find_onTransactionNode :
    w.onTransactionNode.heap.find w.heap.size = w.heap.find w.stateNode := w.heap.find_makeChild bound [] {}

end

theorem commitAnonymousNode_eq_ok {w' : World σ} {owner node : ℕ}
    (ok : commitAnonymousNode owner node w = .ok () w') :
    w' = { w with heap := (w.heap.squash node).makeChild node [] {} } := by
  rw [commitAnonymousNode, get_bind] at ok
  obtain ⟨_, w₁, required, modified⟩ := bind_eq_ok ok
  obtain ⟨-, rfl⟩ := require_eq_ok_iff.mp required
  cases modified
  rfl

theorem commitAnonymousNode_eq_error {w' : World σ} {owner node : ℕ} {e : ChainException}
    (err : commitAnonymousNode owner node w = .error e w') : w' = w := by
  rw [commitAnonymousNode, get_bind] at err
  rcases bind_eq_error err with refused | ⟨_, _, _, ⟨⟩⟩
  cases finalized : (w.heap.cell owner).finalized with
  | true =>
    rw [finalized] at refused
    cases refused
    rfl
  | false =>
    rw [finalized] at refused
    cases refused

end World

namespace Grounded

variable {w w' w'' : World σ}

/-- A write on the current node. -/
theorem of_rewrites (rewrites : w.heap.Rewrites w.stateNode w'.heap) (stateNode : w'.stateNode = w.stateNode) :
    Grounded w w' where
  grown := rewrites.toExtends
  bound := by rw [rewrites.size_eq, stateNode]; exact id
  above _ := stateNode.ge
  below _ q lower := rewrites.others q lower.ne

/-- A node made from the current one. -/
theorem onTransactionNode (w : World σ) : Grounded w w.onTransactionNode where
  grown := .makeChild w.heap w.stateNode [] {}
  bound bound := by
    rw [World.size_onTransactionNode bound]
    exact Nat.lt_succ_self _
  above bound := bound.le
  below bound q lower := (Grows.makeChild w.heap w.stateNode [] {}).cell_eq q (by omega)

section

variable (ran : Grounded w.onTransactionNode w')

include ran

/-- What stays of the nodes below the block's node, whatever happens on the transaction's node. -/
theorem cell_of_below (bound : w.stateNode < w.heap.size) {q : ℕ}
    (lower : q < w.heap.size) : w'.heap.cell q = w.heap.cell q := by
  have kept : w'.heap.cell q = w.onTransactionNode.heap.cell q := ran.below ((onTransactionNode w).bound bound) q lower
  rw [kept]
  exact (Grows.makeChild w.heap w.stateNode [] {}).cell_eq q lower

theorem grows (bound : w.stateNode < w.heap.size) : w.heap.Grows w'.heap where
  toExtends := (onTransactionNode w).grown.trans ran.grown
  cell_eq _ lower := ran.cell_of_below bound lower

/-- Going back to the node from which the current one was made. -/
theorem back : Grounded w (w'.setStateNode w.stateNode) where
  grown := (onTransactionNode w).grown.trans ran.grown
  bound bound := bound.trans_le ((onTransactionNode w).grown.trans ran.grown).size_le
  above _ := le_rfl
  below bound _ lower := ran.cell_of_below bound (lower.trans bound)

theorem linked (bound : w.stateNode < w.heap.size) : (w'.heap.cell w.heap.size).parent = some w.stateNode := by
  have frame := ran.grown.frame w.heap.size (by rw [World.size_onTransactionNode bound]; omega)
  exact frame.parent_eq.trans (World.parent_onTransactionNode bound)

/-- The commit writes to the block's node only. -/
theorem rewrites_squash (bound : w.stateNode < w.heap.size) :
    w'.heap.Rewrites w.stateNode (w'.heap.squash w.heap.size) := by
  have squashed : w'.heap.squash w.heap.size =
      w'.heap.modify w.stateNode (·.absorb (w'.heap.cell w.heap.size)) (fun d => .inl (d.absorb_parent _)) := by
    simp [squash, ran.linked bound]
  rw [squashed]
  exact .modify (.absorb _ _)

/-- After the commit the block's node shows what the transaction's node showed. -/
theorem find_committed (bound : w.stateNode < w.heap.size) (held : (w.heap.cell w.stateNode).backend.isSome) :
    ((w'.heap.squash w.heap.size).makeChild w.heap.size [] {}).find w.stateNode = w'.heap.find w.heap.size := by
  have held' : (w'.heap.cell w.stateNode).backend.isSome := by rw [ran.cell_of_below bound bound]; exact held
  have below : w.stateNode < (w'.heap.squash w.heap.size).size := by
    have size := ran.grown.size_le
    rw [World.size_onTransactionNode bound] at size
    rw [(ran.rewrites_squash bound).size_eq]
    omega
  rw [(Grows.makeChild _ w.heap.size [] {}).find_eq below]
  exact (find_squash w'.heap (ran.linked bound) held').1

end

/-- The operations phase is grounded in the block's node, and so is going back to that node after it. -/
theorem operate {rt : Runtime σ} {trx : Transaction} {w : World σ}
    (operations : Grounded w.onTransactionNode (final (rt.operations trx w.onTransactionNode))) :
    Grounded w (final (rt.operate trx w.stateNode w.heap.size w.onTransactionNode)) ∧
      Grounded w ((final (rt.operate trx w.stateNode w.heap.size w.onTransactionNode)).setStateNode w.stateNode) := by
  refine keeps_bind (fun w' => Grounded w w' ∧ Grounded w (w'.setStateNode w.stateNode))
    ⟨trans_of Grounded (onTransactionNode w) operations, operations.back⟩ ?_
  intro _ w' ok grounded
  have ran : Grounded w.onTransactionNode w' := by
    rw [ok] at operations
    exact operations
  rw [World.commitAnonymousNode, get_bind]
  cases (w'.heap.cell w.stateNode).finalized with
  | true => exact grounded
  | false =>
    have grows := Grows.makeChild (w'.heap.squash w.heap.size) w.heap.size [] {}
    have grown := grounded.1.grown.trans ((Extends.squash w'.heap w.heap.size).trans grows.toExtends)
    have larger : w'.heap.size ≤ ((w'.heap.squash w.heap.size).makeChild w.heap.size [] {}).size :=
      ((Extends.squash w'.heap w.heap.size).trans grows.toExtends).size_le
    have kept : w.stateNode < w.heap.size → ∀ q < w.stateNode,
        ((w'.heap.squash w.heap.size).makeChild w.heap.size [] {}).cell q = w.heap.cell q := by
      intro bound q lower
      have rewrites := ran.rewrites_squash bound
      have inside : q < (w'.heap.squash w.heap.size).size := by
        have size := grounded.1.grown.size_le
        rw [rewrites.size_eq]
        omega
      rw [grows.cell_eq q inside, rewrites.others q lower.ne, ran.cell_of_below bound (lower.trans bound)]
    constructor
    · exact ⟨grown, fun bound => (grounded.1.bound bound).trans_le larger, grounded.1.above, kept⟩
    · exact ⟨grown, fun bound => (grounded.2.bound bound).trans_le larger, fun _ => le_rfl, kept⟩

end Grounded

end Teleno.Chain
