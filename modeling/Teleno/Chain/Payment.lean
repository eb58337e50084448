import Teleno.Chain.BlockPhases

/-! # Who pays for the transactions of a block

The last thing that `apply_transaction` does before it stores its receipt is to call `consume_account_rc`. If the
call returns false the block fails, but if it throws a reversion then so does the transaction, and the block goes
on. The same holds of a reversion before the call, in the dispatch of `apply_transaction` or while another
reversion is logged.
-/

namespace Teleno.Chain

open Library StateDb Exec

namespace Runtime

variable {σ : Type} {rt : Runtime σ} {trx : Transaction} {w : World σ}

/-- The transaction was checked and finished its operations, and then its payer was charged the amount on its
receipt; this was the last system call. -/
def Paid (rt : Runtime σ) (trx : Transaction) (w : World σ) (receipt : TransactionReceipt) : Prop :=
  ∃ u rc reverted w₁ w₂ charged stored, rt.Enters trx w u ∧ rt.checks trx (u.beginTransaction trx) = .ok rc w₁ ∧
    rt.Finished trx w₁ reverted w₂ ∧ receipt.id = trx.id ∧ receipt.payer = trx.header.payer ∧
    receipt.reverted = reverted.isSome ∧ receipt.rcUsed = (chargedSession trx u.outerSessions w₂).usedRc ∧
    rt.calls.consumeAccountRc trx.header.payer receipt.rcUsed (chargeWorld u.outerSessions w₁.stateNode w₂) =
      .ok true charged ∧
    final (rt.callApplyTransaction .blockApplication trx w) =
      ((charged.endTransaction u.outerSessions).setReceipt stored).popFrame

/-- There is one receipt for each transaction, in order, and the transactions were paid for where the loop
reached them. -/
inductive AllPaid (rt : Runtime σ) : ℕ → List Transaction → List TransactionReceipt → BlockContext σ → Prop
  | nil {i : ℕ} {ctx : BlockContext σ} : AllPaid rt i [] [] ctx
  | cons {i : ℕ} {trx : Transaction} {rest : List Transaction} {receipt : TransactionReceipt}
      {receipts : List TransactionReceipt} {ctx ctx' : BlockContext σ} (paid : rt.Paid trx ctx.world receipt)
      (next : rt.applyTransactionAt .blockApplication i trx ctx = .ok () ctx')
      (others : AllPaid rt (i + 1) rest receipts ctx') : AllPaid rt i (trx :: rest) (receipt :: receipts) ctx

/-- The transactions of a block were paid for, as these receipts say. -/
def BlockPaid (rt : Runtime σ) (block : Block) (ctx : BlockContext σ) (receipts : List TransactionReceipt) : Prop :=
  ∃ start, rt.reachTransactions block ctx = .ok () start ∧ rt.AllPaid 0 block.transactions receipts start

/-- Charging the payer throws no reversion. -/
def Payable (rt : Runtime σ) (trx : Transaction) (w : World σ) : Prop :=
  ∀ u rc w₁ reverted w₂, rt.Enters trx w u → rt.checks trx (u.beginTransaction trx) = .ok rc w₁ →
    rt.Finished trx w₁ reverted w₂ →
    ¬ Throws (·.isReversion) (rt.calls.consumeAccountRc trx.header.payer (chargedSession trx u.outerSessions w₂).usedRc)
      (chargeWorld u.outerSessions w₁.stateNode w₂)

/-- The worlds in which the transaction starts, in which it was checked and in which its operations are over, if
it gets there. -/
def finishing? (rt : Runtime σ) (trx : Transaction) (w : World σ) : Option (World σ × World σ × World σ) :=
  match rt.calls.enter (.applyTransaction trx) w.inSystemCall with
  | .error _ _ | .ok false _ => none
  | .ok true u =>
    match rt.checks trx (u.beginTransaction trx) with
    | .error _ _ => none
    | .ok _ w₁ =>
      match rt.operate trx w₁.stateNode w₁.heap.size w₁.onTransactionNode with
      | .ok _ w₂ => some (u, w₁, w₂)
      | .error e w₂ =>
        if e.isReversion ∧ rt.encoding.validateUtf (revertedMessage e) = true then
          some (u, w₁, final (World.pushLog (revertedMessage e) w₂))
        else none

theorem finishing?_eq_some_iff {u w₁ w₂ : World σ} : rt.finishing? trx w = some (u, w₁, w₂) ↔
    ∃ rc reverted, rt.Enters trx w u ∧ rt.checks trx (u.beginTransaction trx) = .ok rc w₁ ∧
      rt.Finished trx w₁ reverted w₂ := by
  constructor
  · intro finishing
    simp only [finishing?] at finishing
    split at finishing
    · contradiction
    · contradiction
    rename_i u' entered
    split at finishing
    · contradiction
    rename_i rc w₁' checked
    split at finishing
    · rename_i w₂' ran
      cases finishing
      exact ⟨rc, none, entered, checked, .committed ran⟩
    · rename_i e w₂' ran
      split at finishing
      · rename_i logged
        cases finishing
        exact ⟨rc, some e, entered, checked, .reverted ran logged.1 logged.2⟩
      · contradiction
  · rintro ⟨rc, reverted, enters, checked, finished⟩
    rw [Enters] at enters
    cases finished with
    | committed ran => simp [finishing?, enters, checked, ran]
    | reverted ran reversion logged =>
      simp only [finishing?, enters, checked, ran]
      rw [if_pos ⟨reversion, logged⟩]

instance (rt : Runtime σ) (trx : Transaction) (w : World σ) : Decidable (rt.Payable trx w) :=
  decidable_of_iff (∀ x ∈ rt.finishing? trx w, ¬ Throws (·.isReversion)
    (rt.calls.consumeAccountRc trx.header.payer (chargedSession trx x.1.outerSessions x.2.2).usedRc)
      (chargeWorld x.1.outerSessions x.2.1.stateNode x.2.2)) (by
    constructor
    · intro each u rc w₁ reverted w₂ enters checked finished
      exact each (u, w₁, w₂) (finishing?_eq_some_iff.mpr ⟨rc, reverted, enters, checked, finished⟩)
    · rintro payable ⟨u, w₁, w₂⟩ finishing
      obtain ⟨rc, reverted, enters, checked, finished⟩ := finishing?_eq_some_iff.mp finishing
      exact payable u rc w₁ reverted w₂ enters checked finished)

/-- No reversion gets in the way of charging the payer: the system call gets to its thunk, a reversion of the
operations can be logged, and the charge itself throws no reversion. -/
structure Chargeable (rt : Runtime σ) (trx : Transaction) (w : World σ) : Prop where
  enters : ∃ u, rt.Enters trx w u
  loggable : rt.Loggable trx w
  payable : rt.Payable trx w

instance (rt : Runtime σ) (trx : Transaction) (w : World σ) : Decidable (rt.Chargeable trx w) :=
  match entered : rt.calls.enter (.applyTransaction trx) w.inSystemCall with
  | .ok true u =>
    decidable_of_iff (rt.Loggable trx w ∧ rt.Payable trx w)
      ⟨fun both => ⟨⟨u, entered⟩, both.1, both.2⟩, fun chargeable => ⟨chargeable.loggable, chargeable.payable⟩⟩
  | .ok false _ | .error _ _ => .isFalse fun chargeable => nomatch entered.symm.trans chargeable.enters.choose_spec

theorem Finished.unique {w₁ w₂ w₂' : World σ} {reverted reverted' : Option ChainException}
    (finished : rt.Finished trx w₁ reverted w₂) (finished' : rt.Finished trx w₁ reverted' w₂') : w₂' = w₂ := by
  cases finished with
  | committed ran =>
    cases finished' with
    | committed ran' =>
      rw [ran] at ran'
      cases ran'
      rfl
    | reverted ran' =>
      rw [ran] at ran'
      contradiction
  | reverted ran => exact (finished'.of_error ran).2

theorem Paid.chargeable {receipt : TransactionReceipt} (paid : rt.Paid trx w receipt) : rt.Chargeable trx w := by
  obtain ⟨u, rc, reverted, w₁, w₂, charged, stored, enters, checked, finished, -, -, -, used, charges, -⟩ := paid
  have same : ∀ {u' rc' w₁'}, rt.Enters trx w u' → rt.checks trx (u'.beginTransaction trx) = .ok rc' w₁' →
      u' = u ∧ w₁' = w₁ := by
    intro u' rc' w₁' enters' checked'
    obtain rfl := enters.unique enters'
    rw [checked] at checked'
    cases checked'
    exact ⟨rfl, rfl⟩
  refine ⟨⟨u, enters⟩, ?_, ?_⟩
  · intro u' rc' w₁' e w₂' enters' checked' ran _
    obtain ⟨rfl, rfl⟩ := same enters' checked'
    exact (finished.of_error ran).1
  · rintro u' rc' w₁' reverted' w₂' enters' checked' finished' ⟨e, failed, err, -⟩
    obtain ⟨rfl, rfl⟩ := same enters' checked'
    obtain rfl := finished.unique finished'
    rw [← used, charges] at err
    contradiction

theorem AllPaid.each {i : ℕ} {transactions : List Transaction} {receipts : List TransactionReceipt}
    {ctx : BlockContext σ} (paid : rt.AllPaid i transactions receipts ctx) :
    rt.EachReached .blockApplication rt.Chargeable i transactions ctx := by
  induction paid with
  | nil => exact .nil _
  | cons paid next _ ih =>
    refine .cons paid.chargeable ?_
    rw [next]
    rintro ctx' ⟨⟩
    exact ih

end Runtime

namespace Platform

variable {p : Platform} {trx : Transaction} {block : Block}

/-- A transaction that is applied in a round was paid for, if it could be charged. -/
theorem paid_of_round {w w' : World Host} {old : BlockReceipt}
    (chargeable : (p.chain .blockApplication).Chargeable trx w)
    (round : p.Round trx w w') (stored : w.receipt = .block old)
    (ends : final ((p.chain .blockApplication).callApplyTransaction .blockApplication trx w) = w') :
    ∃ receipt, w'.receipt = .block (old.addTransactionReceipt receipt) ∧
      (p.chain .blockApplication).Paid trx w receipt := by
  cases round with
  | skipped outside => exact absurd chargeable.enters outside
  | @applied u u' new enters entering isolated t =>
    refine ⟨t.receipt, t.receipt_eq (isolated.receipt.trans stored), ?_⟩
    have charges := t.concluded.charged
    rcases t.concluded.paid with ⟨charged, outcome⟩ | ⟨e, charged, outcome, reversion⟩
    · obtain ⟨before, -, last⟩ := t.concluded.stored
      rw [outcome] at charges last
      exact ⟨u, t.rc, t.reverted, t.opened, _, charged, _, enters, t.concluded.checked, t.concluded.finished,
        rfl, rfl, rfl, rfl, charges, ends.trans (congrArg World.popFrame last)⟩
    · rw [outcome] at charges
      exact absurd ⟨e, charged, charges, reversion⟩
        (chargeable.payable u t.rc t.opened t.reverted _ enters t.concluded.checked t.concluded.finished)

/-- If the transactions of a loop could be charged, they were paid for. -/
theorem allPaid_of_each {node i : ℕ} {transactions : List Transaction} {start reached : BlockContext Host}
    {old : BlockReceipt} (idle : Idle node start.world) (calm : AllCalm reached.world)
    (each : (p.chain .blockApplication).EachReached .blockApplication (p.chain .blockApplication).Chargeable i
      transactions start)
    (ok : (p.chain .blockApplication).applyTransactions .blockApplication i transactions start = .ok () reached)
    (stored : start.world.receipt = .block old) :
    ∃ receipts new, reached.world.receipt = .block new ∧
      new.transactionReceipts = old.transactionReceipts ++ receipts ∧
      (p.chain .blockApplication).AllPaid i transactions receipts start := by
  induction transactions generalizing i start old with
  | nil =>
    cases ok
    exact ⟨[], old, stored, (List.append_nil _).symm, .nil⟩
  | cons trx rest ih =>
    obtain ⟨ctx, applied, ok, ends, round, idle'⟩ := loop_cons idle calm ok each.head.loggable
    obtain ⟨receipt, stored', paid⟩ := paid_of_round each.head round stored ends
    obtain ⟨receipts, new, last, listed, others⟩ := ih idle' (each.tail applied) ok stored'
    refine ⟨receipt :: receipts, new, last, ?_, .cons paid applied others⟩
    rw [listed, BlockReceipt.addTransactionReceipt, List.append_assoc]
    rfl

/-- Every transaction of an applied block was paid for, and has one receipt, if and only if no reversion got in
the way of charging its payer. -/
theorem blockPaid_iff {heap : Heap} {node : ℕ} {receipt : BlockReceipt} {ctx : BlockContext Host}
    (applied : (p.chain .blockApplication).controllerApplyBlock false block (blockContext heap node) = .ok receipt ctx)
    (bound : node < heap.size) (calm : AllCalm ctx.world) :
    (p.chain .blockApplication).BlockPaid block (blockContext heap node) receipt.transactionReceipts ↔
      (p.chain .blockApplication).EachTransaction (p.chain .blockApplication).Chargeable block
        (blockContext heap node) := by
  constructor
  · rintro ⟨start, reaches, paid⟩ start' reaches'
    rw [reaches] at reaches'
    cases reaches'
    exact paid.each
  · intro each
    obtain ⟨a⟩ := exists_applied applied calm
    obtain ⟨receipts, new, stored, listed, paid⟩ := allPaid_of_each (a.idle bound) a.calm
      (each a.start a.reaches) a.loops (a.opened.receipt a.calm_start)
    obtain rfl : a.old = new := Receipt.block.inj (a.stored.symm.trans stored)
    refine ⟨a.start, a.reaches, ?_⟩
    rw [a.transactionReceipts, listed]
    exact paid

section Sample

/-- `consume_account_rc` is overridden by a contract that traps when it is called in a transaction, and otherwise
exits with a result that grants the charge. -/
def evadingPlatform : Platform :=
  { transparent ampleLimits
      (fun id _ => if same : id = .exit then same ▸ (0, .object [1]) else emptyArgs id)
      fun _ _ => .host (.invokeSystemCall SystemCallId.getTransaction.ctorIdx.toUInt32 0 [])
        (fun reply => if reply.value = 0 then .done (some ⟨.reversion .reversion, [], []⟩)
          else .host (.invokeSystemCall SystemCallId.exit.ctorIdx.toUInt32 0 []) (fun _ => .done none)
            fun e => .done (some e))
        fun e => .done (some e) with
    parseResult := fun id bytes => if same : id = .consumeAccountRc then same ▸ (bytes == [1]) else emptyResult id }

def evadingHeap : Heap :=
  transparentHeap [(.systemCallDispatch, [SystemCallId.consumeAccountRc.ctorIdx.toUInt8], [1, 7]),
    (.contractBytecode, [7], [1]), (.contractMetadata, [7], [1])]

/-- The block is applied, the transaction is committed and has a receipt, and its payer was not charged. -/
theorem evaded_charge_unpaid :
    let result := (evadingPlatform.chain .blockApplication).controllerApplyBlock false (singleBlock plainTransaction)
      (blockContext evadingHeap 1)
    (value result).map (fun receipt => receipt.transactionReceipts.map (·.reverted)) = some [false] ∧
      ∀ receipts, ¬ (evadingPlatform.chain .blockApplication).BlockPaid (singleBlock plainTransaction)
        (blockContext evadingHeap 1) receipts := by
  refine ⟨by decide +kernel, ?_⟩
  rintro receipts ⟨start, reaches, paid⟩
  have unpayable : ¬ (evadingPlatform.chain .blockApplication).Payable plainTransaction
      (final ((evadingPlatform.chain .blockApplication).reachTransactions (singleBlock plainTransaction)
        (blockContext evadingHeap 1))).world := by
    decide +kernel
  rw [reaches] at unpayable
  exact unpayable paid.each.head.payable

/-- A reversion that can be logged does not get in the way. -/
theorem blockPaid_iff_mixed :
    ∃ receipt ctx, garblingChain.controllerApplyBlock false mixedBlock (blockContext garblingContext.heap 1) =
        .ok receipt ctx ∧
      garblingChain.BlockPaid mixedBlock (blockContext garblingContext.heap 1) receipt.transactionReceipts := by
  have checked :
      let run := garblingChain.controllerApplyBlock false mixedBlock
      ¬ Throws (fun _ => True) run (blockContext garblingContext.heap 1) ∧
        AllCalm (final (run (blockContext garblingContext.heap 1))).world := by
    decide +kernel
  obtain ⟨passes, calm⟩ := checked
  obtain ⟨receipt, ctx, applied⟩ := exists_ok_of_not_throws passes
  rw [applied] at calm
  exact ⟨receipt, ctx, applied, (blockPaid_iff applied (by decide +kernel) calm).mpr (by decide +kernel)⟩

end Sample

end Platform

end Teleno.Chain
