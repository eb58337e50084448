import Teleno.StateDb.Quiet

/-! # Double producers under proof-of-burn

When a block of the head's own signer and revision is finalized, the proof-of-burn comparator drops
both and the head falls back to the best of the other fork heads and the head's parent. The rule
only compares the new block with the head: a block that overtakes another signer's head, or one the
head falls back to, is not checked against the rest of the tree. Where neither of these blocks is
double produced, the head never is.
-/

namespace Teleno.StateDb

open Library

namespace Database

/-- The node's signer has another finalized block at its revision. -/
def DoubleProduced (db : Database) (p : ℕ) : Prop :=
  ∃ c ∈ db.index, c ≠ p ∧ (db.heap.cell c).finalized = true ∧ db.heap.signer c = db.heap.signer p ∧
    db.heap.revision c = db.heap.revision p

/-- The node is higher than the head, or another signer's and earlier. -/
def Overtakes (db : Database) (node : ℕ) : Prop :=
  db.heap.revision db.head < db.heap.revision node ∨
    db.heap.revision node = db.heap.revision db.head ∧ db.heap.signer db.head ≠ db.heap.signer node ∧
      db.heap.timestamp node < db.heap.timestamp db.head

/-- The node is the head's signer's second block at the head's revision. -/
def Rivals (db : Database) (node : ℕ) : Prop :=
  db.heap.revision node = db.heap.revision db.head ∧ db.heap.signer db.head = db.heap.signer node

/-- The other fork heads and the head's parent. -/
def fallbacks (db : Database) : List ℕ :=
  db.forkList.filter (fun p => db.heap.id p ≠ db.heap.id db.head) ++ (db.heap.cell db.head).parent.toList

/-- A block that overtakes the head is not double produced, nor is the one with the highest priority
among those the head falls back to. -/
def NoDoubleProducer (db : Database) : DbOp → Prop
  | .finalizeNode id => ∀ node ∈ db.getNode id, (db.Overtakes node → ¬ db.DoubleProduced node) ∧
      (db.Rivals node → ∀ p ∈ db.fallbacks, (∀ q ∈ db.fallbacks, db.heap.priorityAlgorithm q p = false) →
        ¬ db.DoubleProduced p)
  | _ => True

instance (db : Database) (p : ℕ) : Decidable (db.DoubleProduced p) :=
  inferInstanceAs (Decidable (∃ c ∈ db.index, _ ∧ _))

instance (db : Database) (node : ℕ) : Decidable (db.Overtakes node) :=
  inferInstanceAs (Decidable (_ ∨ _))

instance (db : Database) (node : ℕ) : Decidable (db.Rivals node) :=
  inferInstanceAs (Decidable (_ ∧ _))

instance (db : Database) : (op : DbOp) → Decidable (db.NoDoubleProducer op)
  | .finalizeNode id => inferInstanceAs (Decidable (∀ node ∈ db.getNode id, _ ∧ (_ → ∀ p ∈ db.fallbacks, _ → _)))
  | .createWritableNode .. | .cloneNode .. | .transact .. | .discardNode .. | .commitNode .. =>
    .isTrue trivial

variable {db db' : Database} {node head : ℕ} {forkHeads : ForkHeads}

section HeadUpdate

theorem mem_fallbacks {p : ℕ} : p ∈ db.fallbacks ↔
    p ∈ db.forkList ∧ db.heap.id p ≠ db.heap.id db.head ∨ (db.heap.cell db.head).parent = some p := by
  simp [fallbacks]

section

variable (update : HeadUpdate .pob db node head forkHeads)

include update

theorem HeadUpdate.eq_of_overtakes (overtakes : db.Overtakes node) : head = node := by
  rw [Overtakes] at overtakes
  cases update with
  | higher | takes => rfl
  | lower below => omega
  | stays level later signers =>
    have earlier := later (by decide)
    omega
  | best level _ signers | fallback level _ signers =>
    rcases overtakes with above | ⟨-, other, -⟩
    · omega
    · exact absurd signers other

theorem HeadUpdate.eq_of_not_overtakes
    (slower : ¬ db.Overtakes node) (unrelated : ¬ db.Rivals node) : head = db.head := by
  cases update with
  | higher above => exact absurd (.inl above) slower
  | takes level earlier _ signers => exact absurd (.inr ⟨level, signers rfl, earlier⟩) slower
  | lower | stays => rfl
  | best level _ signers | fallback level _ signers => exact absurd ⟨level, signers⟩ unrelated

/-- A rival sends the head to the fallback with the highest priority. -/
theorem HeadUpdate.fallback_of_rivals (rivals : db.Rivals node) : head ∈ db.fallbacks ∧
      ∀ q ∈ db.fallbacks, db.heap.priorityAlgorithm q head = false := by
  obtain ⟨level, same⟩ := rivals
  cases update with
  | higher | lower => omega
  | stays _ _ signers | takes _ _ _ signers => exact absurd same (signers rfl)
  | best _ _ _ fork other unbeaten up unbeating =>
    refine ⟨mem_fallbacks.mpr (.inl ⟨fork, other⟩), fun q listed => ?_⟩
    rcases mem_fallbacks.mp listed with ⟨fork', other'⟩ | up'
    · exact unbeaten q fork' other'
    · exact Option.some.inj (up.symm.trans up') ▸ unbeating
  | fallback _ _ _ up beats =>
    refine ⟨mem_fallbacks.mpr (.inr up), fun q listed => ?_⟩
    rcases mem_fallbacks.mp listed with ⟨fork, other⟩ | up'
    · exact Heap.priorityAlgorithm_asymm (beats q fork other)
    · exact Option.some.inj (up.symm.trans up') ▸ Heap.priorityAlgorithm_self head

end

end HeadUpdate

section Finalize

variable {p : ℕ}

theorem overtakes_markFinalized : (db.markFinalized node).Overtakes p ↔ db.Overtakes p := by
  simp only [Overtakes, revision_markFinalized, signer_markFinalized, timestamp_markFinalized]
  rfl

theorem rivals_markFinalized : (db.markFinalized node).Rivals p ↔ db.Rivals p := by
  simp only [Rivals, revision_markFinalized, signer_markFinalized]
  rfl

theorem fallbacks_markFinalized : (db.markFinalized node).fallbacks = db.fallbacks := by
  simp only [fallbacks, id_markFinalized, parent_markFinalized]
  rfl

/-- Finalizing a node double produces the blocks that were so before and those it rivals. -/
theorem doubleProduced_markFinalized_iff (mem : node ∈ db.index) :
    (db.markFinalized node).DoubleProduced p ↔ db.DoubleProduced p ∨
      node ≠ p ∧ db.heap.signer node = db.heap.signer p ∧ db.heap.revision node = db.heap.revision p := by
  simp only [DoubleProduced, finalized_markFinalized, signer_markFinalized, revision_markFinalized]
  constructor
  · rintro ⟨c, known, other, rfl | done, same⟩
    · exact .inr ⟨other, same⟩
    · exact .inl ⟨c, known, other, done, same⟩
  · rintro (⟨c, known, other, done, same⟩ | ⟨other, same⟩)
    · exact ⟨c, known, other, .inr done, same⟩
    · exact ⟨node, mem, other, .inl rfl, same⟩

theorem ne_head_of_mem_fallbacks (listed : p ∈ db.fallbacks) : db.head ≠ p := by
  rcases mem_fallbacks.mp listed with ⟨-, other⟩ | up
  · rintro rfl
    exact other rfl
  · exact (db.heap.descending _ p up).ne'

theorem WellFormed.mem_index_of_mem_fallbacks (wf : db.WellFormed) (listed : p ∈ db.fallbacks) : p ∈ db.index := by
  rcases mem_fallbacks.mp listed with ⟨fork, -⟩ | up
  · exact wf.mem_index_of_mem_forkList fork
  · exact (wf.tree.parent_mem wf.head_mem up).1

/-- A rival of the head adds nothing to what makes a fallback double produced: the head already does. -/
theorem WellFormed.doubleProduced_fallback_iff (wf : db.WellFormed) (mem : node ∈ db.index) (rivals : db.Rivals node)
    (listed : p ∈ db.fallbacks) : (db.markFinalized node).DoubleProduced p ↔ db.DoubleProduced p := by
  rw [doubleProduced_markFinalized_iff mem, or_iff_left_of_imp]
  rintro ⟨-, signers, level⟩
  exact ⟨db.head, wf.head_mem, ne_head_of_mem_fallbacks listed, wf.head_finalized, rivals.2.trans signers,
    rivals.1.symm.trans level⟩

variable {nodeId : Multihash} (wf : db.WellFormed)
  (success : db.finalizeNode .pob nodeId = (.ok (), db'))

include wf success

/-- The head after finalizing a node, by how the node relates to the head before. -/
theorem WellFormed.head_finalizeNode : ∃ node, db.getNode nodeId = some node ∧
    (∀ p, db'.DoubleProduced p ↔ (db.markFinalized node).DoubleProduced p) ∧
    (db.Overtakes node → db'.head = node) ∧
    (db.Rivals node → db'.head ∈ db.fallbacks ∧
      ∀ q ∈ db.fallbacks, db.heap.priorityAlgorithm q db'.head = false) ∧
    (¬ db.Overtakes node → ¬ db.Rivals node → db'.head = db.head) := by
  obtain ⟨node, found, head, forkHeads, update, rfl⟩ := finalizeNode_eq wf.forkIds success
  refine ⟨node, found, fun p => ?_, ?_⟩
  · simp [DoubleProduced, updateForkHeads_index, updateForkHeads_heap]
  rw [updateForkHeads_head]
  refine ⟨fun overtakes => update.eq_of_overtakes (overtakes_markFinalized.mpr overtakes), fun rivals => ?_,
    fun slower unrelated => update.eq_of_not_overtakes (mt overtakes_markFinalized.mp slower)
      (mt rivals_markFinalized.mp unrelated)⟩
  have fallback := update.fallback_of_rivals (rivals_markFinalized.mpr rivals)
  rw [fallbacks_markFinalized] at fallback
  simpa only [priorityAlgorithm_markFinalized] using fallback

/-- The head stays clear of double producers exactly under the condition. -/
theorem WellFormed.doubleProduced_finalizeNode_iff (clean : ¬ db.DoubleProduced db.head) :
    ¬ db'.DoubleProduced db'.head ↔ db.NoDoubleProducer (.finalizeNode nodeId) := by
  obtain ⟨node, found, same, overtaken, dropped, kept⟩ := wf.head_finalizeNode success
  have mem := (wf.getNode_iff.mp found).1
  have condition : db.NoDoubleProducer (.finalizeNode nodeId) ↔
      (db.Overtakes node → ¬ db.DoubleProduced node) ∧
      (db.Rivals node → ∀ p ∈ db.fallbacks, (∀ q ∈ db.fallbacks, db.heap.priorityAlgorithm q p = false) →
        ¬ db.DoubleProduced p) := by
    simp [NoDoubleProducer, found]
  rw [condition, same]
  by_cases overtakes : db.Overtakes node
  · have unrelated : ¬ db.Rivals node := by
      rintro ⟨level, signers⟩
      rcases overtakes with above | ⟨-, other, -⟩
      · omega
      · exact other signers
    rw [overtaken overtakes, doubleProduced_markFinalized_iff mem]
    simp [overtakes, unrelated]
  by_cases rivals : db.Rivals node
  · obtain ⟨listed, highest⟩ := dropped rivals
    rw [wf.doubleProduced_fallback_iff mem rivals listed]
    refine ⟨fun clean => ⟨fun overtakes' => absurd overtakes' overtakes, fun _ p listed' highest' => ?_⟩,
      fun guarded => guarded.2 rivals _ listed highest⟩
    -- Only one fallback has the highest priority.
    rwa [wf.tree.id_inj p (wf.mem_index_of_mem_fallbacks listed') _ (wf.mem_index_of_mem_fallbacks listed)
      (Heap.id_eq_of_unbeaten (highest p listed') (highest' _ listed))]
  · rw [kept overtakes rivals, doubleProduced_markFinalized_iff mem]
    refine iff_of_true ?_ ⟨fun overtakes' => absurd overtakes' overtakes, fun rivals' => absurd rivals' rivals⟩
    rintro (double | ⟨-, signers, level⟩)
    · exact clean double
    · exact rivals ⟨level, signers.symm⟩

/-- Neither of two blocks of one signer at the head's revision is the head. -/
theorem WellFormed.head_finalizeNode_of_rivals (found : db.getNode nodeId = some node)
    (fresh : (db.heap.cell node).finalized = false) (rivals : db.Rivals node) :
    db'.head ≠ node ∧ db'.head ≠ db.head := by
  obtain ⟨node', found', -, -, dropped, -⟩ := wf.head_finalizeNode success
  obtain rfl := Option.some.inj (found.symm.trans found')
  obtain ⟨listed, -⟩ := dropped rivals
  refine ⟨?_, (ne_head_of_mem_fallbacks listed).symm⟩
  rintro same
  rw [same] at listed
  rcases mem_fallbacks.mp listed with ⟨fork, -⟩ | up
  · obtain ⟨id, entry⟩ := mem_forkList_iff.mp fork
    exact absurd (fresh.symm.trans (wf.forks id node entry).2.2) Bool.false_ne_true
  · have next := (wf.tree.parent_mem wf.head_mem up).2.1
    have level := rivals.1
    omega

end Finalize

/-- Operations that finalize nothing do not make the head double produced. -/
theorem Quiet.not_doubleProduced {op : DbOp} (quiet : db.Quiet op db') (wf' : db'.WellFormed)
    (clean : ¬ db.DoubleProduced db.head) : ¬ db'.DoubleProduced db'.head := by
  rintro ⟨c, mem, other, done, signers, level⟩
  obtain ⟨known, done', revision, signer⟩ := quiet.blocks c mem done
  obtain ⟨-, -, revision', signer'⟩ := quiet.blocks db'.head wf'.head_mem wf'.head_finalized
  rw [signer, signer', quiet.head_eq] at signers
  rw [revision, revision', quiet.head_eq] at level
  exact clean ⟨c, known, quiet.head_eq ▸ other, done', signers, level⟩

/-- As long as no block that overtakes the head, or that the head falls back to, is double produced,
the head never is. A block of the head's signer at the head's revision always costs both the head. -/
theorem head_not_doubleProduced (codec : KeyCodec) (crypto : Crypto) :
    (∀ db, (databaseMachine codec crypto .pob).Reachable (fun db op => db.NoDoubleProducer op) db →
      ¬ db.DoubleProduced db.head) ∧
    ∀ db, (databaseMachine codec crypto .pob).Reachable (fun _ _ => True) db →
      ∀ id node db', db.getNode id = some node → (db.heap.cell node).finalized = false → db.Rivals node →
        db.finalizeNode .pob id = (.ok (), db') → db'.head ≠ node ∧ db'.head ≠ db.head := by
  constructor
  · intro db reached
    have invariant : db.WellFormed ∧ ¬ db.DoubleProduced db.head := by
      refine reached.invariant (motive := fun db => db.WellFormed ∧ ¬ db.DoubleProduced db.head) ?_ ?_
      · rintro db ⟨backend, init, synced, rfl⟩
        refine ⟨.openLockless codec synced init, ?_⟩
        rintro ⟨c, mem, other, -⟩
        exact other (List.mem_singleton.mp mem)
      · rintro db op db' ⟨wf, clean⟩ guarded moves
        refine ⟨wf.step moves, ?_⟩
        by_cases finalizes : ∃ id, op = .finalizeNode id
        · obtain ⟨id, rfl⟩ := finalizes
          cases moves with
          | returns success _ => exact (wf.doubleProduced_finalizeNode_iff success clean).mpr guarded
          | throws _ _ once => exact absurd rfl (once id)
        · have quiet := wf.quiet_of_step moves (fun id same => finalizes ⟨id, same⟩)
          exact quiet.not_doubleProduced (wf.step moves) clean
    exact invariant.2
  · intro db reached id node db' found fresh rivals success
    exact (wellFormed_of_reachable reached).head_finalizeNode_of_rivals success found fresh rivals

/-- Blocks on the root, finalized as they arrive. -/
def arrivals (blocks : List (Multihash × BlockHeader)) : List DbOp :=
  blocks.flatMap fun (id, header) => [.createWritableNode .zero id header, .finalizeNode id]

/-- A signer's second block takes the head from the block that overtook the first. Likewise the head
falls back to one of two blocks of a signer. -/
theorem head_doubleProduced :
    (∃ db, openEmpty.run .transparent .transparent .pob (arrivals [
        ([1], { timestamp := 10, signer := [7] }), ([2], { timestamp := 5, signer := [8] }),
        ([3], { timestamp := 1, signer := [7] })]) = some db ∧
      (databaseMachine .transparent .transparent .pob).Reachable (fun _ _ => True) db ∧
      db.DoubleProduced db.head) ∧
    ∃ db, openEmpty.run .transparent .transparent .pob (arrivals [
        ([1], { timestamp := 5, signer := [8] }), ([2], { timestamp := 7, signer := [7] }),
        ([3], { timestamp := 8, signer := [7] }), ([4], { timestamp := 9, signer := [8] })]) = some db ∧
      (databaseMachine .transparent .transparent .pob).Reachable (fun _ _ => True) db ∧
      db.DoubleProduced db.head :=
  ⟨exists_run (by decide), exists_run (by decide)⟩

/-- One signer's two blocks and another signer's block. -/
def rivalBlocks : List DbOp := arrivals [
  ([1], { timestamp := 10, signer := [7] }), ([2], { timestamp := 20, signer := [7] }),
  ([3], { timestamp := 30, signer := [8] })]

theorem head_not_doubleProduced_of_rivalBlocks :
    (∃ db, openEmpty.run .transparent .transparent .pob rivalBlocks = some db ∧
      db.heap.id db.head = [3] ∧ ¬ db.DoubleProduced db.head) ∧
    ∃ db, openEmpty.run .transparent .transparent .pob (rivalBlocks.take 3) = some db ∧
      db.getNode [2] = some 2 ∧ db.Rivals 2 ∧
      (db.finalizeNode .pob [2]).2.head ≠ 2 ∧ (db.finalizeNode .pob [2]).2.head ≠ db.head := by
  have ran : (openEmpty.run .transparent .transparent .pob rivalBlocks).any
      (fun db => decide (db.heap.id db.head = [3])) = true := by decide
  have clear : openEmpty.admits .transparent .transparent .pob (fun db op => decide (db.NoDoubleProducer op))
      rivalBlocks = true := by decide
  have rival : (openEmpty.run .transparent .transparent .pob (rivalBlocks.take 3)).any
      (fun db => decide (db.getNode [2] = some 2 ∧ (db.heap.cell 2).finalized = false ∧ db.Rivals 2 ∧
        (db.finalizeNode .pob [2]).1 = .ok ())) = true := by decide
  obtain ⟨ended, ran, head⟩ := exists_of_any ran
  obtain ⟨db, ran', reached, found, fresh, rivals, success⟩ := exists_run rival
  obtain ⟨global, dropped⟩ := head_not_doubleProduced .transparent .transparent
  refine ⟨⟨ended, ran, head, global ended ?_⟩, db, ran', found, rivals, ?_⟩
  · exact reachable_of_admitted_run (fun _ _ passed => of_decide_eq_true passed) (openEmpty_reachable .pob) clear ran
  · exact dropped db reached [2] 2 _ found fresh rivals (Prod.ext success rfl)

end Database

end Teleno.StateDb
