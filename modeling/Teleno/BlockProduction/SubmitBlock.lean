import Teleno.Chain.Proposal

/-! # Proposing a produced block again

A proposal answers with a receipt or with the indices of the transactions that failed. The producer deletes these
from the block, last index first, seals what is left and proposes it again. As `apply_block` notes indices of the
block in ascending order, no deletion moves another index that is still to be deleted.
-/

namespace Teleno.BlockProduction

open Library Chain List

/-- The hashes of the producer, and the signature of an id: with proof of burn it includes the proof of the VRF. -/
structure Sealing where
  hashHeader : BlockHeader → Bytes
  hashTransactionHeader : TransactionHeader → Bytes
  hashSignatures : List Bytes → Bytes
  merkleRoot : List Bytes → Bytes
  sign : Bytes → Bytes

structure ProposeBlockResponse where
  receipt : Option BlockReceipt := none
  failedTransactionIndices : List ℕ := []

inductive Status where
  | produced
  | notReady
  | notOurTurn
deriving DecidableEq

structure ProductionResult where
  status : Status := .notReady
  height : ℕ := 0
  id : Bytes := []
  transactionCount : ℕ := 0
  removedFailedTransactions : ℕ := 0

section Submit

variable {α : Type} (sealing : Sealing)

def setMerkleRoots (block : Block) : Block :=
  let hashes := block.transactions.flatMap fun trx =>
    [sealing.hashTransactionHeader trx.header, sealing.hashSignatures trx.signatures]
  { block with header := { block.header with transactionMerkleRoot := sealing.merkleRoot hashes } }

/-- Set the id and the signature. -/
def sealBlock (block : Block) : Block :=
  let id := sealing.hashHeader block.header
  { block with id := id, signature := sealing.sign id }

/-- `DeleteSubrange` of one element, which must be there. -/
def deleteAt (i : ℕ) (elements : List α) : Option (List α) :=
  if i < elements.length then some (elements.eraseIdx i) else none

/-- The deletions of `submit_block`, from the last index to the first. -/
def deleteFailed (elements : List α) (failed : List ℕ) : Option (List α) :=
  failed.foldr (fun i left => left.bind (deleteAt i)) (some elements)

/-- `submit_block` after the answer: whether to propose the block again, the block and the result. There is no
outcome when an index outside of the block would be deleted. -/
def submitBlock (block : Block) (resp : ProposeBlockResponse) (result : ProductionResult) :
    Option (Bool × Block × ProductionResult) :=
  match resp.receipt with
  | none =>
    if resp.failedTransactionIndices = [] then some (false, block, { result with status := .notReady })
    else (deleteFailed block.transactions resp.failedTransactionIndices).map fun transactions =>
      (true, setMerkleRoots sealing { block with transactions := transactions },
        { result with
          removedFailedTransactions := result.removedFailedTransactions + resp.failedTransactionIndices.length })
  | some receipt => some (false, block,
      { result with
        status := .produced
        height := receipt.height
        id := receipt.id
        transactionCount := receipt.transactionReceipts.length })

/-- The block that the loop proposes after this many answers, if it gets there. -/
def proposal (block : Block) (answers : ℕ → ProposeBlockResponse) : ℕ → Option (Block × ProductionResult)
  | 0 => some (sealBlock sealing block, {})
  | k + 1 => (proposal block answers k).bind fun proposed =>
    (submitBlock sealing proposed.1 (answers k) proposed.2).bind fun next =>
      if next.1 then some (sealBlock sealing next.2.1, next.2.2) else none

end Submit

/-- The elements at other places, in their order. -/
def without {α : Type} (failed : List ℕ) (elements : List α) : List α :=
  (elements.zipIdx.filter fun element => element.2 ∉ failed).map Prod.fst

/-- The answer carries the indices that `apply_block` notes for the block in a new context. -/
def Records {σ : Type} (rt : Runtime σ) (block : Block) (failed : List ℕ) : Prop :=
  ∃ ctx : BlockContext σ, ctx.failedTransactionIndices = [] ∧
    (Exec.final (rt.applyBlock .blockProposal block ctx)).failedTransactionIndices = failed

/-- The loop ends, and every answer without a receipt names transactions of the block that was proposed: if there are
any, the next proposal is that block without them, sealed again. -/
structure RetriesExactly (sealing : Sealing) (block : Block) (answers : ℕ → ProposeBlockResponse) : Prop where
  ends : ∃ k ≤ block.transactions.length + 1, proposal sealing block answers k = none
  inside : ∀ k proposed, proposal sealing block answers k = some proposed → (answers k).receipt = none →
    ∀ i ∈ (answers k).failedTransactionIndices, i < proposed.1.transactions.length
  retries : ∀ k proposed, proposal sealing block answers k = some proposed → (answers k).receipt = none →
    (answers k).failedTransactionIndices ≠ [] → ∃ result, proposal sealing block answers (k + 1) =
      some (sealBlock sealing (setMerkleRoots sealing { proposed.1 with
        transactions := without (answers k).failedTransactionIndices proposed.1.transactions }), result)

section Delete

variable {α : Type} {failed : List ℕ} {i : ℕ}

theorem without_append (front back : List α) : without failed (front ++ back) = without failed front ++
    ((back.zipIdx front.length).filter fun element => element.2 ∉ failed).map Prod.fst := by
  rw [without, zipIdx_append, filter_append, map_append, Nat.zero_add]
  rfl

/-- Nothing is left out before the first index. -/
theorem without_of_le {front : List α} (later : ∀ k ∈ failed, front.length ≤ k) : without failed front = front := by
  have all : front.zipIdx.filter (fun element => element.2 ∉ failed) = front.zipIdx := by
    refine filter_eq_self.mpr fun element mem => decide_eq_true fun isFailed => ?_
    have before := snd_lt_of_mem_zipIdx mem
    have after := later _ isFailed
    omega
  rw [without, all, zipIdx_map_fst]

/-- A place before all others can be deleted after them. -/
theorem deleteAt_without {elements : List α} (inside : i < elements.length) (first : ∀ k ∈ failed, i < k) :
    deleteAt i (without failed elements) = some (without (i :: failed) elements) := by
  obtain ⟨front, back, rfl, length⟩ : ∃ front back, elements = front ++ back ∧ front.length = i :=
    ⟨elements.take i, elements.drop i, (take_append_drop i elements).symm, length_take_of_le inside.le⟩
  subst length
  rcases back with _ | ⟨element, back⟩
  · rw [append_nil] at inside
    omega
  have others : ((back.zipIdx (front.length + 1)).filter fun element => element.2 ∉ front.length :: failed) =
      (back.zipIdx (front.length + 1)).filter fun element => element.2 ∉ failed := by
    refine filter_congr fun element mem => decide_eq_decide.mpr ?_
    have after := le_snd_of_mem_zipIdx mem
    rw [mem_cons, not_or, and_iff_right (by omega)]
  have kept : front.length ∉ failed := fun mem => Nat.lt_irrefl _ (first _ mem)
  rw [without_append, without_append, without_of_le fun k mem => (first k mem).le,
    without_of_le (forall_mem_cons.mpr ⟨le_rfl, fun k mem => (first k mem).le⟩), zipIdx_cons,
    filter_cons, filter_cons, if_pos (decide_eq_true kept), if_neg (by simp), others, map_cons, deleteAt,
    if_pos (by simp), eraseIdx_append_of_length_le le_rfl, Nat.sub_self, eraseIdx_cons_zero]

/-- Deleting ascending places from the last to the first leaves the others. -/
theorem deleteFailed_eq {elements : List α} (ascending : failed.Pairwise (· < ·))
    (inside : ∀ i ∈ failed, i < elements.length) : deleteFailed elements failed = some (without failed elements) := by
  induction failed with
  | nil => exact congrArg some (without_of_le fun _ mem => absurd mem not_mem_nil).symm
  | cons i failed ih =>
    obtain ⟨first, rest⟩ := pairwise_cons.mp ascending
    have left := ih rest fun k mem => inside k (mem_cons_of_mem _ mem)
    change (deleteFailed elements failed).bind (deleteAt i) = _
    rw [left]
    exact deleteAt_without (inside i mem_cons_self) first

theorem length_without (elements : List α) (some : failed ≠ []) (inside : ∀ i ∈ failed, i < elements.length) :
    (without failed elements).length < elements.length := by
  obtain ⟨i, rest, rfl⟩ := exists_cons_of_ne_nil some
  have place := inside i mem_cons_self
  rw [without, length_map, ← length_zipIdx (l := elements) (i := 0)]
  refine length_filter_lt_length_iff_exists.mpr ⟨(elements[i], i), ?_, by simp⟩
  exact mk_mem_zipIdx_iff_getElem?.mpr (getElem?_eq_getElem place)

end Delete

section Retry

variable {σ : Type} {rt : Runtime σ} {sealing : Sealing} {block : Block} {answers : ℕ → ProposeBlockResponse}
  {failed : List ℕ}

theorem Records.ascending (records : Records rt block failed) :
    failed.Pairwise (· < ·) ∧ ∀ i ∈ failed, i < block.transactions.length := by
  obtain ⟨ctx, fresh, rfl⟩ := records
  obtain ⟨noted, within, notes⟩ := rt.failed_applyBlock .blockProposal block ctx
  rw [notes, fresh, nil_append]
  refine ⟨Pairwise.sublist within pairwise_lt_range', fun i mem => ?_⟩
  have bounds := mem_range'_1.mp (within.subset mem)
  omega

/-- Another proposal follows just when the answer names failed transactions. -/
theorem proposal_succ {k : ℕ} {proposed : Block × ProductionResult} (records : (answers k).receipt = none →
      Records rt proposed.1 (answers k).failedTransactionIndices)
    (reached : proposal sealing block answers k = some proposed) :
    (proposal sealing block answers (k + 1) = none ∧
      ((answers k).receipt = none → (answers k).failedTransactionIndices = [])) ∨
    (answers k).failedTransactionIndices ≠ [] ∧ (answers k).receipt = none ∧
      ∃ result, proposal sealing block answers (k + 1) =
        some (sealBlock sealing (setMerkleRoots sealing { proposed.1 with
          transactions := without (answers k).failedTransactionIndices proposed.1.transactions }), result) := by
  rw [proposal, reached, Option.bind_some, submitBlock]
  cases receipt : (answers k).receipt with
  | some receipt => exact .inl ⟨rfl, fun missing => absurd missing (Option.some_ne_none _)⟩
  | none =>
    by_cases none : (answers k).failedTransactionIndices = []
    · rw [if_pos none]
      exact .inl ⟨rfl, fun _ => none⟩
    · obtain ⟨ascending, inside⟩ := (records receipt).ascending
      rw [if_neg none, deleteFailed_eq ascending inside]
      exact .inr ⟨none, rfl, _, rfl⟩

end Retry

/-- The system calls refuse every nonce. -/
def refusingRuntime : Runtime Unit :=
  { Runtime.uploadRuntime with
    calls := { Runtime.uploadRuntime.calls with verifyAccountNonce := fun _ _ => pure false } }

def plainSealing : Sealing := ⟨fun _ => [1], fun _ => [], fun _ => [], fun _ => [], id⟩

/-- The only transaction fails, and the block without it is accepted. -/
def retryAnswers : ℕ → ProposeBlockResponse
  | 0 => { failedTransactionIndices := [0] }
  | _ => { receipt := some {} }

end Teleno.BlockProduction
