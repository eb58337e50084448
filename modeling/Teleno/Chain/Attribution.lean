import Teleno.Chain.BlockPhases

/-! # Who has used the bandwidth of a block

What a transaction uses up to the end of its operations is reported in its receipt, and everything else that is
used while a block is applied is usage of the system. At every point outside a transaction the two add up to
what the meter has counted, both for network and for compute bandwidth.
-/

namespace Teleno.Chain

open Library StateDb Exec

namespace ResourceMeter

variable (meter : ResourceMeter)

/-- `system_network_bandwidth_used`. -/
def networkUsedBySystem : UInt64 := (max 0 meter.systemNetworkBandwidthUsed).toUInt64

/-- `system_compute_bandwidth_used`. -/
def computeUsedBySystem : UInt64 := (max 0 meter.systemComputeBandwidthUsed).toUInt64

end ResourceMeter

/-- What was taken from a counter with a limit that fits an `int64_t` is either attributed or system usage. -/
structure Accounts (limit remaining : UInt64) (systemUsed : Int64) (attributed : ℕ) : Prop where
  fits : limit.toNat < 2 ^ 63
  remaining_le : remaining ≤ limit
  nonneg : 0 ≤ systemUsed.toInt
  total : limit.toNat - remaining.toNat = attributed + systemUsed.toInt.toNat

namespace Accounts

variable {limit remaining remaining' : UInt64} {systemUsed systemUsed' : Int64} {attributed : ℕ}

theorem start (fits : limit.toNat < 2 ^ 63) : Accounts limit limit 0 0 :=
  ⟨fits, UInt64.le_refl _, le_rfl, by simp⟩

section

variable (accounts : Accounts limit remaining systemUsed attributed)

include accounts

theorem used (less : remaining' ≤ remaining) : remaining.toNat ≤ limit.toNat ∧ remaining'.toNat ≤ remaining.toNat ∧
    (remaining - remaining').toNat = remaining.toNat - remaining'.toNat :=
  ⟨UInt64.le_iff_toNat_le.mp accounts.remaining_le, UInt64.le_iff_toNat_le.mp less, UInt64.toNat_sub_of_le _ _ less⟩

/-- The use of bandwidth outside a session. -/
theorem system (draws : Draws false remaining systemUsed remaining' systemUsed') :
    Accounts limit remaining' systemUsed' attributed := by
  obtain ⟨below, below', used⟩ := accounts.used draws.remaining_le
  have fits := accounts.fits
  have nonneg := accounts.nonneg
  have total := accounts.total
  have amount : (remaining - remaining').toInt64.toInt = remaining.toNat - remaining'.toNat := by
    change (remaining - remaining').toBitVec.toInt = _
    rw [BitVec.toInt_eq_toNat_of_lt]
    · change ((remaining - remaining').toNat : ℤ) = _
      omega
    · change 2 * (remaining - remaining').toNat < _
      omega
  have sum : systemUsed'.toInt = systemUsed.toInt + (remaining.toNat - remaining'.toNat) := by
    rw [draws.systemUsed_eq, if_neg Bool.false_ne_true, Int64.toInt_add, amount]
    exact Int.bmod_eq_of_le (by omega) (by omega)
  exact ⟨fits, UInt64.le_trans draws.remaining_le accounts.remaining_le, by omega, by omega⟩

/-- The use of bandwidth in a session. -/
theorem session (draws : Draws true remaining systemUsed remaining' systemUsed') :
    Accounts limit remaining' systemUsed' (attributed + (remaining - remaining').toNat) := by
  obtain ⟨below, below', used⟩ := accounts.used draws.remaining_le
  have total := accounts.total
  have same : systemUsed' = systemUsed := draws.systemUsed_eq
  subst same
  exact ⟨accounts.fits, UInt64.le_trans draws.remaining_le accounts.remaining_le, accounts.nonneg, by omega⟩

/-- The account as the meter reports it. -/
theorem reported : (limit - remaining).toNat = attributed + (max 0 systemUsed).toUInt64.toNat := by
  have nonneg : 0 ≤ systemUsed := Int64.le_iff_toInt_le.mpr accounts.nonneg
  have same : max 0 systemUsed = systemUsed := if_pos nonneg
  rw [same, Int64.toNat_toUInt64_of_le nonneg, UInt64.toNat_sub_of_le _ _ accounts.remaining_le]
  exact accounts.total

end

end Accounts

namespace Platform

variable {p : Platform} {trx : Transaction} {block : Block}

/-- What the receipts report together. -/
def reported (used : TransactionReceipt → UInt64) (receipts : List TransactionReceipt) : ℕ :=
  receipts.foldl (fun sum receipt => sum + (used receipt).toNat) 0

theorem reported_addTransactionReceipt (used : TransactionReceipt → UInt64) (block : BlockReceipt)
    (receipt : TransactionReceipt) : reported used (block.addTransactionReceipt receipt).transactionReceipts =
      reported used block.transactionReceipts + (used receipt).toNat := by
  simp [reported, BlockReceipt.addTransactionReceipt]

/-- The bandwidth that the meter has counted is what the receipts of the transactions report and what the system
has used. -/
def Attributed (w : World Host) : Prop :=
  ∃ receipt, w.receipt = .block receipt ∧
    w.meter.networkBandwidthUsed.toNat =
      reported (·.networkBandwidthUsed) receipt.transactionReceipts + w.meter.networkUsedBySystem.toNat ∧
    w.meter.computeBandwidthUsed.toNat =
      reported (·.computeBandwidthUsed) receipt.transactionReceipts + w.meter.computeUsedBySystem.toNat

instance (w : World Host) : Decidable (Attributed w) :=
  match stored : w.receipt with
  | .block receipt => decidable_of_iff (w.meter.networkBandwidthUsed.toNat =
      reported (·.networkBandwidthUsed) receipt.transactionReceipts + w.meter.networkUsedBySystem.toNat ∧
    w.meter.computeBandwidthUsed.toNat =
      reported (·.computeBandwidthUsed) receipt.transactionReceipts + w.meter.computeUsedBySystem.toNat)
      (by simp [Attributed, stored])
  | .none | .transaction _ => .isFalse (by simp [Attributed, stored])

/-- The counters of the meter balance. -/
structure Audited (w : World Host) (receipt : BlockReceipt) : Prop where
  stored : w.receipt = .block receipt
  network : w.meter.resourceLimitData.networkBandwidthLimit.toNat < 2 ^ 63 →
    Accounts w.meter.resourceLimitData.networkBandwidthLimit w.meter.networkBandwidthRemaining
      w.meter.systemNetworkBandwidthUsed (reported (·.networkBandwidthUsed) receipt.transactionReceipts)
  compute : w.meter.resourceLimitData.computeBandwidthLimit.toNat < 2 ^ 63 →
    Accounts w.meter.resourceLimitData.computeBandwidthLimit w.meter.computeBandwidthRemaining
      w.meter.systemComputeBandwidthUsed (reported (·.computeBandwidthUsed) receipt.transactionReceipts)

namespace Audited

variable {w w' : World Host} {receipt : BlockReceipt}

section

variable (audited : Audited w receipt)

include audited

theorem attributed (network : w.meter.resourceLimitData.networkBandwidthLimit.toNat < 2 ^ 63)
    (compute : w.meter.resourceLimitData.computeBandwidthLimit.toNat < 2 ^ 63) : Attributed w :=
  ⟨receipt, audited.stored, (audited.network network).reported, (audited.compute compute).reported⟩

/-- What is used outside a session. -/
theorem spends (spends : w.meter.Spends false w'.meter) (same : w'.receipt = w.receipt) : Audited w' receipt where
  stored := same.trans audited.stored
  network := by
    rw [spends.limits]
    exact fun fits => (audited.network fits).system spends.network
  compute := by
    rw [spends.limits]
    exact fun fits => (audited.compute fits).system spends.compute

theorem isolated {new : List Incident} (isolated : p.Local w new w')
    (outside : w.session = none) : Audited w' receipt := by
  have spends := isolated.metered.spends
  rw [outside] at spends
  exact audited.spends spends isolated.receipt

/-- What a transaction uses is reported in its receipt, and the charge is system usage. -/
theorem transacted (t : p.Transacted trx w w') : Audited w' (receipt.addTransactionReceipt t.receipt) := by
  obtain ⟨paid, system⟩ := t.spends
  have difference : ∀ limit before after : UInt64, limit - after - (limit - before) = before - after := by
    intro limit before after
    grind
  have used : t.receipt.networkBandwidthUsed =
      w.meter.networkBandwidthRemaining - t.ran.meter.networkBandwidthRemaining := by
    change t.finished.meter.networkBandwidthUsed - w.meter.networkBandwidthUsed = _
    rw [Transacted.finished, Runtime.finish_meter]
    simp [ResourceMeter.networkBandwidthUsed, paid.limits, difference]
  have computed : t.receipt.computeBandwidthUsed =
      w.meter.computeBandwidthRemaining - t.ran.meter.computeBandwidthRemaining := by
    change t.finished.meter.computeBandwidthUsed - w.meter.computeBandwidthUsed = _
    rw [Transacted.finished, Runtime.finish_meter]
    simp [ResourceMeter.computeBandwidthUsed, paid.limits, difference]
  refine ⟨t.receipt_eq audited.stored, ?_, ?_⟩
  · rw [system.limits, paid.limits]
    intro fits
    have accounts := ((audited.network fits).session paid.network).system system.network
    rw [← used] at accounts
    rw [reported_addTransactionReceipt]
    exact accounts
  · rw [system.limits, paid.limits]
    intro fits
    have accounts := ((audited.compute fits).session paid.compute).system system.compute
    rw [← computed] at accounts
    rw [reported_addTransactionReceipt]
    exact accounts

end

/-- A round of the loop. -/
theorem round {node : ℕ} (idle : Idle node w) (audited : Audited w receipt) (round : p.Round trx w w') :
    ∃ receipt', Audited w' receipt' := by
  cases round with
  | skipped _ _ isolated => exact ⟨receipt, audited.isolated isolated.popFrame idle.session⟩
  | @applied u _ _ _ entering isolated t =>
    have entered : Audited u.popFrame receipt := audited.isolated isolated.popFrame idle.session
    have inside : Audited u receipt := { entered with }
    exact ⟨_, { inside.transacted t with }⟩

end Audited

/-- A program that only makes system calls and uses network bandwidth: it keeps whatever these keep. -/
def Native {α : Type} (rt : Runtime Host) (program : WorldM Host α) : Prop :=
  ∀ (rel : World Host → World Host → Prop) [IsPreorder (World Host) rel], rt.calls.Move rel → Lenient rel →
    Moves rel program

/-- The points of `apply_block` between its system calls and outside its transactions: after the limits are set,
after any number of transactions, and after any system calls of native code from there on. -/
inductive Underway (rt : Runtime Host) (block : Block) (ctx : BlockContext Host) : World Host → Prop
  | limited {u v : World Host} {limits : ResourceLimitData}
      (enters : rt.calls.enter (.applyBlock block) ctx.world.inSystemCall = .ok true u)
      (reads : rt.calls.getResourceLimits (u.openBlock block) = .ok limits v) :
      Underway rt block ctx { v with meter := .ofLimits limits }
  | between {start reached : BlockContext Host} {before after : List Transaction}
      (reaches : rt.reachTransactions block ctx = .ok () start) (split : block.transactions = before ++ after)
      (ran : rt.applyTransactions .blockApplication 0 before start = .ok () reached) :
      Underway rt block ctx reached.world
  | called {w : World Host} {α : Type} {program : WorldM Host α} (underway : Underway rt block ctx w)
      (native : Native rt program) : Underway rt block ctx (final (program w))

/-- The points of a block outside its transactions, its end included. -/
inductive Point (rt : Runtime Host) (block : Block) (ctx : BlockContext Host) : World Host → Prop
  | inside {w : World Host} (underway : Underway rt block ctx w) : Point rt block ctx w
  | applied {receipt : BlockReceipt} {ctx' : BlockContext Host}
      (ends : rt.controllerApplyBlock false block ctx = .ok receipt ctx') : Point rt block ctx ctx'.world

section Block

variable {heap : Heap} {node : ℕ}

variable {w : World Host}

/-- Before anything is used. -/
theorem Audited.limited (stored : w.receipt = .block {}) (limits : ResourceLimitData) :
    Audited { w with meter := .ofLimits limits } {} :=
  ⟨stored, .start, .start⟩

section

variable (bound : node < heap.size)

include bound

/-- While the block is under way native code is running. -/
theorem privileged_underway
    (underway : Underway (p.chain .blockApplication) block (blockContext heap node) w) : Privileged w.stack := by
  have inside := (idle_blockContext bound).privileged
  have calls := chain_calls p { free := True } .blockApplication
  induction underway with
  | @limited u v limits enters reads =>
    have entered := Within.grows ((calls.enter (.applyBlock block)).ok enters) inside
    have privileged : Privileged u.stack := entered.1 ▸ inside
    have read := Within.grows (calls.getResourceLimits.ok reads) privileged
    exact read.1 ▸ privileged
  | @between start reached before after reaches split ran =>
    obtain ⟨o⟩ := exists_opened inside reaches
    have privileged : Privileged start.world.stack := o.stack ▸ inside
    exact (Within.grows ((chain_applyTransactions p .blockApplication 0 before).ok ran) privileged).1 ▸ privileged
  | @called w α program _ native ih =>
    exact (Within.grows (native _ calls lenient_within w) ih).1 ▸ ih

variable (loggable : (p.chain .blockApplication).EachTransaction (p.chain .blockApplication).Loggable block
  (blockContext heap node))

include loggable

/-- After any number of transactions. -/
theorem audited_between {start reached : BlockContext Host} {before after : List Transaction}
    (reaches : (p.chain .blockApplication).reachTransactions block (blockContext heap node) = .ok () start)
    (split : block.transactions = before ++ after)
    (ran : (p.chain .blockApplication).applyTransactions .blockApplication 0 before start = .ok () reached)
    (calm : AllCalm reached.world) : Idle node reached.world ∧ ∃ receipt, Audited reached.world receipt := by
  have inside := idle_blockContext bound
  obtain ⟨o⟩ := exists_opened inside.privileged reaches
  have privileged : Privileged start.world.stack := o.stack ▸ inside.privileged
  have calm_start := (Within.grows ((chain_applyTransactions p .blockApplication 0 before).ok ran) privileged).2 calm
  obtain ⟨limited, idle⟩ := o.idle calm_start inside
  have each := loggable start reaches
  rw [split] at each
  let holds : List Transaction → World Host → Prop := fun _ w => ∃ receipt, Audited w receipt
  have begins : holds [] start.world := by
    have audited := Audited.limited (o.localRead calm_start).receipt o.limits
    have verified := audited.isolated (o.localVerify calm_start) limited.session
    rw [o.start_eq]
    exact ⟨{}, { verified with }⟩
  refine loop_invariant (fun _ _ => id) ?_ idle calm each.of_append ran begins
  rintro - trx w w' idle ⟨receipt, audited⟩ - round
  exact audited.round idle round

/-- While the block is under way and no transaction is, there is no session, and the counters balance. -/
theorem audited_underway (underway : Underway (p.chain .blockApplication) block (blockContext heap node) w)
    (calm : AllCalm w) : w.session = none ∧ ∃ receipt, Audited w receipt := by
  have inside := idle_blockContext bound
  have calls := chain_calls p { free := True } .blockApplication
  induction underway with
  | @limited u v limits enters reads =>
    obtain ⟨entering, entered⟩ := ((calls.enter (.applyBlock block)).ok enters).logs inside.privileged
    have privileged : Privileged u.stack := entered.stack ▸ inside.privileged
    obtain ⟨reading, read⟩ := (calls.getResourceLimits.ok reads).logs privileged
    have localRead : p.Local (u.openBlock block) reading v := read.toLocal trivial calm
    have localEnter := entered.toLocal trivial (read.calm calm).1
    have idle := inside.limited localEnter entered.stack localRead read.stack limits
    exact ⟨idle.session, {}, .limited localRead.receipt limits⟩
  | between reaches split ran =>
    obtain ⟨idle, audited⟩ := audited_between bound loggable reaches split ran calm
    exact ⟨idle.session, audited⟩
  | @called w α program underway native ih =>
    obtain ⟨new, logs⟩ := (native _ calls lenient_within w).logs (privileged_underway bound underway)
    obtain ⟨session, receipt, audited⟩ := ih (logs.calm calm).1
    have isolated := logs.toLocal trivial calm
    exact ⟨isolated.session session, receipt, audited.isolated isolated session⟩

theorem audited_point (point : Point (p.chain .blockApplication) block (blockContext heap node) w) (calm : AllCalm w) :
    ∃ receipt, Audited w receipt := by
  cases point with
  | inside underway => exact (audited_underway bound loggable underway calm).2
  | applied ends =>
    obtain ⟨a⟩ := exists_applied ends calm
    obtain ⟨idle, receipt, audited⟩ := audited_between bound loggable a.reaches (List.append_nil _).symm a.loops a.calm
    have last := audited.isolated a.consuming idle.session
    obtain rfl : a.old = receipt := Receipt.block.inj (a.stored.symm.trans audited.stored)
    rw [a.ends]
    refine ⟨_, rfl, ?_, ?_⟩
    · rw [a.transactionReceipts]
      exact last.network
    · rw [a.transactionReceipts]
      exact last.compute

end

/-- The usage of a block is attributed at every point of `apply_block` outside its transactions, as long as the
limits fit an `int64_t`, reversions can be logged, and no contract has applied a block or a transaction. -/
theorem usage_attributed {w : World Host} (bound : node < heap.size)
    (loggable : (p.chain .blockApplication).EachTransaction (p.chain .blockApplication).Loggable block
      (blockContext heap node))
    (point : Point (p.chain .blockApplication) block (blockContext heap node) w) (calm : AllCalm w)
    (network : w.meter.resourceLimitData.networkBandwidthLimit.toNat < 2 ^ 63)
    (compute : w.meter.resourceLimitData.computeBandwidthLimit.toNat < 2 ^ 63) : Attributed w := by
  obtain ⟨receipt, audited⟩ := audited_point bound loggable point calm
  exact audited.attributed network compute

end Block

section Sample

/-- The platform with the garbling contract, where a transaction has one byte and a block one byte more than its
transactions. -/
def weighingPlatform : Platform :=
  { garblingPlatform with
    crypto := ⟨fun bytes => if bytes = text "object_key::head_block" then [1] else [], fun _ => []⟩
    encoding :=
      { garblingPlatform.encoding with
        transaction := fun _ => [0]
        block := fun block => List.replicate (block.transactions.length + 1) 0 } }

/-- The byte of a transaction whose reversion cannot be logged is in no receipt and is not system usage. -/
theorem garbled_usage_unattributed :
    let result := (weighingPlatform.chain .blockApplication).controllerApplyBlock false
      (singleBlock garblingTransaction) (blockContext garblingContext.heap 1)
    (value result).map (fun receipt => receipt.transactionReceipts.map (·.networkBandwidthUsed)) = some [0] ∧
      (final result).world.meter.networkBandwidthUsed = 2 ∧ (final result).world.meter.networkUsedBySystem = 1 ∧
      ¬ Attributed (final result).world := by
  decide +kernel

/-- The attribution for a block with a reverted transaction. -/
theorem usage_attributed_mixed :
    ∃ receipt ctx, (weighingPlatform.chain .blockApplication).controllerApplyBlock false mixedBlock
        (blockContext garblingContext.heap 1) = .ok receipt ctx ∧
      receipt.transactionReceipts.map (·.reverted) = [true, false] ∧ Attributed ctx.world := by
  have checked :
      let run := (weighingPlatform.chain .blockApplication).controllerApplyBlock false mixedBlock
        (blockContext garblingContext.heap 1)
      (value run).map (fun receipt => receipt.transactionReceipts.map (·.reverted)) = some [true, false] ∧
      AllCalm (final run).world ∧ (final run).world.meter.resourceLimitData = ampleLimits := by
    decide +kernel
  obtain ⟨receipts, calm, limits⟩ := checked
  cases applied : (weighingPlatform.chain .blockApplication).controllerApplyBlock false mixedBlock
    (blockContext garblingContext.heap 1) with
  | error e ctx =>
    rw [applied] at receipts
    contradiction
  | ok receipt ctx =>
    rw [applied] at receipts calm limits
    have limits : ctx.world.meter.resourceLimitData = _ := limits
    refine ⟨receipt, ctx, rfl, Option.some.inj receipts,
      usage_attributed (by decide +kernel) (by decide +kernel) (.applied applied) calm ?_ ?_⟩ <;>
      rw [limits] <;> decide

end Sample

end Platform

end Teleno.Chain
