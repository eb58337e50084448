import Teleno.Chain.Levels

/-! # What a reverted transaction leaves behind

A transaction whose operations raise a reversion never touches the block's node: they work on a node of their
own, which is dropped. `apply_transaction` logs the reversion, goes back to the block's node, charges the payer
and throws the reversion again. Logging throws itself if the message is not valid UTF-8, and then the rest is
left out.
-/

namespace Teleno.Chain

open Library StateDb Exec Chain.Runtime World

variable {trx : Transaction} {e : ChainException}

namespace Runtime

variable {σ : Type} {rt : Runtime σ} {w w' : World σ}

/-- The operations phase throws from the operations, or because the block's node is finalized. -/
theorem grounded_of_operate_error
    (operations : Grounded w.onTransactionNode (final (rt.operations trx w.onTransactionNode)))
    (err : rt.operate trx w.stateNode w.heap.size w.onTransactionNode = .error e w') :
    Grounded w.onTransactionNode w' ∧ w' = final (rt.operations trx w.onTransactionNode) := by
  rcases bind_eq_error err with ran | ⟨_, w₁, ran, refused⟩
  · rw [ran] at operations ⊢
    exact ⟨operations, rfl⟩
  · obtain rfl := commitAnonymousNode_eq_error refused
    rw [ran] at operations ⊢
    exact ⟨operations, rfl⟩

/-- A log entry costs the payer nothing. -/
theorem usedRc_pushLog (trx : Transaction) (outer : List PayerSession) (message : Bytes) (w : World σ) :
    (chargedSession trx outer (final (pushLog message w))).usedRc = (chargedSession trx outer w).usedRc := by
  change ((payerSession { w with chronicler := _, session := _ } outer).getD _).usedRc =
    ((payerSession w outer).getD _).usedRc
  rw [payerSession, payerSession]
  cases session : w.session with
  | none | some => rfl

/-- The operations phase of a transaction ends in one way only. -/
theorem Finished.of_error {w₁ w₂ w₂' : World σ} {reverted : Option ChainException}
    (finished : rt.Finished trx w₁ reverted w₂')
    (ran : rt.operate trx w₁.stateNode w₁.heap.size w₁.onTransactionNode = .error e w₂) :
    rt.encoding.validateUtf (revertedMessage e) = true ∧ w₂' = final (pushLog (revertedMessage e) w₂) := by
  cases finished with
  | committed ran' =>
    rw [ran] at ran'
    contradiction
  | reverted ran' _ logged =>
    rw [ran] at ran'
    cases ran'
    exact ⟨logged, rfl⟩

/-- How a transaction ends whose operations raise a reversion. -/
theorem TransactionRun.of_reverted {intent : Intent} {w₁ w₂ : World σ} {rc : UInt64}
    {result : EStateM.Result ChainException (World σ) Unit} (run : rt.TransactionRun intent trx w result)
    (admitted : w.getCallerPrivilege = .kernelMode) (writable : intent ≠ .readOnly)
    (checked : rt.checks trx (w.beginTransaction trx) = .ok rc w₁)
    (ran : rt.operate trx w₁.stateNode w₁.heap.size w₁.onTransactionNode = .error e w₂) (reversion : e.isReversion) :
    (rt.encoding.validateUtf (revertedMessage e) = false ∧
      ∃ receipt, final result = (w₂.endTransaction w.outerSessions).setReceipt receipt) ∨
    (rt.encoding.validateUtf (revertedMessage e) = true ∧
      ∃ receipt, final result = ((final (rt.calls.consumeAccountRc trx.header.payer
        (chargedSession trx w.outerSessions w₂).usedRc (chargeWorld w.outerSessions w₁.stateNode
          (final (pushLog (revertedMessage e) w₂))))).endTransaction w.outerSessions).setReceipt receipt) := by
  have same : ∀ {rc' : UInt64} {w₁' : World σ}, rt.checks trx (w.beginTransaction trx) = .ok rc' w₁' → w₁' = w₁ := by
    intro rc' w₁' checked'
    rw [checked] at checked'
    cases checked'
    rfl
  cases run with
  | refused denied => exact absurd (denied admitted) writable
  | rejected _ checked' => rw [checked] at checked'; contradiction
  | broken _ checked' ran' kind =>
    obtain rfl := same checked'
    rw [ran] at ran'
    cases ran'
    exact absurd reversion kind
  | abandoned _ checked' ran' failure =>
    obtain rfl := same checked'
    rw [ran] at ran'
    cases ran'
    exact absurd reversion (ChainException.not_isReversion_of_isFailure failure)
  | unlogged _ checked' ran' _ invalid =>
    obtain rfl := same checked'
    rw [ran] at ran'
    cases ran'
    exact .inl ⟨invalid, _, rfl⟩
  | charged _ checked' finished settles =>
    obtain rfl := same checked'
    obtain ⟨logged, rfl⟩ := finished.of_error ran
    obtain ⟨receipt, ends, -⟩ := settles.final_eq
    rw [usedRc_pushLog] at ends
    exact .inr ⟨logged, receipt, ends⟩

end Runtime

namespace Platform

variable {p : Platform} {intent : Intent}

/-- The payer was charged for what the session had used, on the block's node, which showed the objects that it
had when the transaction's node was made; whatever changed since then was changed by this charge, and unless the
charge itself applies a block or a transaction, the block's node is the current one. -/
def LeavesOnlyCharges (p : Platform) (intent : Intent) (trx : Transaction) (outer : List PayerSession)
    (opened thrown ended : World Host) : Prop :=
  ∃ start : World Host, start.stateNode = opened.stateNode ∧ start.stack = opened.stack ∧
    start.rest.journal = thrown.rest.journal ∧
    start.heap.find opened.stateNode = opened.heap.find opened.stateNode ∧
    let charged := final ((p.chain intent).calls.consumeAccountRc trx.header.payer
      (chargedSession trx outer thrown).usedRc start)
    ended.heap = charged.heap ∧ ended.stateNode = charged.stateNode ∧ ended.rest.journal = charged.rest.journal ∧
      ((∀ new, charged.rest.journal = start.rest.journal ++ new → ∀ r ∈ new, r.Calm) →
        ended.stateNode = opened.stateNode)

section Reverted

variable {w w₁ w₂ : World Host} {rc : UInt64}

/-- The worlds of a transaction whose operations throw. -/
theorem thrown_grounded (privileged : Privileged w.stack) (bound : w.stateNode < w.heap.size)
    (checked : (p.chain intent).checks trx (w.beginTransaction trx) = .ok rc w₁)
    (ran : (p.chain intent).operate trx w₁.stateNode w₁.heap.size w₁.onTransactionNode = .error e w₂) :
    w₁.stack = w.stack ∧ w₂.stack = w.stack ∧ w₁.stateNode < w₁.heap.size ∧ Grounded w₁.onTransactionNode w₂ := by
  have bound' : ¬ ({} : Scope).free := id
  obtain ⟨new, checks⟩ := (chain_checks p {} intent bound' trx).ok checked privileged
  have stack : w₁.stack = w.stack := checks.stack
  obtain ⟨new', operations⟩ := chain_operations p {} intent trx w₁.onTransactionNode (stack ▸ privileged)
  obtain ⟨grounded, ends⟩ := grounded_of_operate_error operations.grounded ran
  refine ⟨stack, ?_, checks.grounded.bound bound, grounded⟩
  rw [ends, operations.stack]
  exact stack

/-- A transaction that reverts leaves only its charges if and only if its reversion can be logged. -/
theorem leavesOnlyCharges_iff (admitted : w.getCallerPrivilege = .kernelMode) (privileged : Privileged w.stack)
    (writable : intent ≠ .readOnly) (bound : w.stateNode < w.heap.size)
    (checked : (p.chain intent).checks trx (w.beginTransaction trx) = .ok rc w₁)
    (ran : (p.chain intent).operate trx w₁.stateNode w₁.heap.size w₁.onTransactionNode = .error e w₂)
    (reversion : e.isReversion) :
    p.LeavesOnlyCharges intent trx w.outerSessions w₁ w₂ (final ((p.chain intent).applyTransaction intent trx w)) ↔
      p.encoding.validateUtf (revertedMessage e) = true := by
  obtain ⟨stack₁, stack₂, bound₁, grounded⟩ := thrown_grounded privileged bound checked ran
  have view : w₂.heap.find w₁.stateNode = w₁.heap.find w₁.stateNode := (grounded.grows bound₁).find_eq bound₁
  have run := transactionRun (p.chain intent) intent trx w
  generalize (p.chain intent).applyTransaction intent trx w = result at run ⊢
  rcases run.of_reverted admitted writable checked ran reversion with
    ⟨invalid, receipt, ends⟩ | ⟨valid, receipt, ends⟩
  · refine iff_of_false ?_ (Bool.eq_false_iff.mp invalid)
    rintro ⟨start, node, stack, journal, -, -, ended, journal', -⟩
    have privileged' : Privileged start.stack := by rw [stack, stack₁]; exact privileged
    obtain ⟨new, logs⟩ := chain_consumeAccountRc p {} intent trx.header.payer
      (chargedSession trx w.outerSessions w₂).usedRc start privileged'
    rw [ends] at ended journal'
    have unchanged : new = [] := by
      have same := logs.journal
      rw [← journal', journal] at same
      exact List.self_eq_append_right.mp same
    have stays := (logs.isolated trivial (by simp [unchanged])).stateNode
    have above := grounded.above ((Grounded.onTransactionNode w₁).bound bound₁)
    change w₂.stateNode = _ at ended
    change w₁.heap.size ≤ w₂.stateNode at above
    omega
  · have privileged' : Privileged w₂.stack := by rw [stack₂]; exact privileged
    have run := chain_consumeAccountRc p {} intent trx.header.payer (chargedSession trx w.outerSessions w₂).usedRc
      (chargeWorld w.outerSessions w₁.stateNode (final (pushLog (revertedMessage e) w₂))) privileged'
    refine iff_of_true ⟨chargeWorld w.outerSessions w₁.stateNode
      (final (pushLog (revertedMessage e) w₂)), rfl, stack₂.trans stack₁.symm, rfl, view, ?_⟩ valid
    rw [ends]
    generalize (p.chain intent).calls.consumeAccountRc _ _ _ = charged at run ⊢
    obtain ⟨new, logs⟩ := run
    exact ⟨rfl, rfl, rfl, fun calm => (logs.isolated trivial (calm new logs.journal)).stateNode⟩

end Reverted

section Sample

/-- Limits with room for the samples. -/
def ampleLimits : ResourceLimitData :=
  { diskStorageLimit := 1000, networkBandwidthLimit := 1000, computeBandwidthLimit := 1000 }

/-- Two contracts. The second one exits with an error message that is not valid UTF-8, which is stored as the
result before it is rejected. The first one, a system contract, calls the second one, ignores the error and
returns without a result of its own. -/
def garblingPlatform : Platform :=
  .transparent ampleLimits
    (fun id _ =>
      if same : id = .call then same ▸ ([8], 0, [])
      else if same : id = .exit then same ▸ (5, .error ⟨[255], []⟩)
      else emptyArgs id)
    fun bytecode _ =>
      let id := if bytecode = [1] then SystemCallId.call else .exit
      .host (.invokeSystemCall id.ctorIdx.toUInt32 0 []) (fun _ => .done none) fun e => .done (some e)

abbrev garblingChain : Runtime Host := garblingPlatform.chain .blockApplication

/-- The context of a block with the two contracts. -/
def garblingContext : World Host where
  heap := transparentHeap [(.contractBytecode, [7], [1]), (.contractMetadata, [7], [1]),
    (.contractBytecode, [8], [2]), (.contractMetadata, [8], [0])]
  stateNode := 1
  parentNode := some 0
  stack := [.systemCall, .systemCall]
  meter := .ofLimits ampleLimits
  receipt := .block {}
  rest := {}

/-- A transaction that calls the first contract. -/
def garblingTransaction : Transaction where
  header := { nonce := [0], rcLimit := 1000 }
  operations := [.callContract { contractId := [7] }]
  signatures := [List.replicate 65 0]

/-- The transaction ends in a reversion without a charge, and its node stays the current one. -/
theorem garbled_reversion_stays :
    let result := garblingChain.applyTransaction .blockApplication garblingTransaction garblingContext
    let consume := garblingPlatform.number .consumeAccountRc
    Throws (·.isReversion) (garblingChain.applyTransaction .blockApplication garblingTransaction) garblingContext ∧
      (final result).stateNode = 2 ∧ .resolved consume (.thunk consume false) ∉ (final result).rest.journal := by
  decide +kernel

/-- The message of the reversion cannot be logged, and more than charges is left. -/
theorem leavesOnlyCharges_iff_garbled :
    ∃ rc w₁ w₂ e, garblingChain.checks garblingTransaction (garblingContext.beginTransaction garblingTransaction) =
        .ok rc w₁ ∧
      garblingChain.operate garblingTransaction w₁.stateNode w₁.heap.size w₁.onTransactionNode = .error e w₂ ∧
      e.isReversion ∧
      ¬ garblingPlatform.LeavesOnlyCharges .blockApplication garblingTransaction garblingContext.outerSessions w₁ w₂
        (final (garblingChain.applyTransaction .blockApplication garblingTransaction garblingContext)) := by
  have passes : ¬ Throws (fun _ => True) (garblingChain.checks garblingTransaction)
      (garblingContext.beginTransaction garblingTransaction) := by decide +kernel
  have reverts : let w₁ := final (garblingChain.checks garblingTransaction
        (garblingContext.beginTransaction garblingTransaction))
      Throws (fun e => e.isReversion ∧ garblingPlatform.encoding.validateUtf (revertedMessage e) = false)
        (garblingChain.operate garblingTransaction w₁.stateNode w₁.heap.size) w₁.onTransactionNode := by
    decide +kernel
  obtain ⟨rc, w₁, checked⟩ := exists_ok_of_not_throws passes
  rw [checked] at reverts
  obtain ⟨e, w₂, ran, reversion, garbled⟩ := reverts
  have spec := leavesOnlyCharges_iff (by decide) ⟨⟨by decide, by decide⟩, by rintro frame ⟨⟩⟩ (by decide)
    (by decide +kernel) checked ran reversion
  exact ⟨rc, w₁, w₂, e, checked, ran, reversion, fun leaves => absurd (spec.mp leaves) (by simp [garbled])⟩

end Sample

end Platform

end Teleno.Chain
