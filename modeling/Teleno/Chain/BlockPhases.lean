import Teleno.Chain.BlockRun
import Teleno.Chain.RevertedTransaction

/-! # The phases of a block on the host

While native code applies a block, the journal tells what its system calls did in every phase. As long as no
contract applies a block or a transaction itself, each phase of a transaction only writes to its own node: the
checks and the charge to the block's node, the operations to the transaction's node.
-/

namespace Teleno.Chain

open Library StateDb Exec Chain.Runtime World

/-- The world after operations on this node were committed, or reverted and logged. -/
def Runtime.finish {σ : Type} (node : ℕ) (reverted : Option ChainException) (w : World σ) : World σ :=
  match reverted with
  | none => { w with heap := (w.heap.squash node).makeChild node [] {} }
  | some e => final (pushLog (revertedMessage e) w)

section Finish

variable {σ : Type} (node : ℕ) (reverted : Option ChainException) (w : World σ)

@[simp] theorem Runtime.finish_stack : (finish node reverted w).stack = w.stack := by cases reverted <;> rfl

@[simp] theorem Runtime.finish_rest : (finish node reverted w).rest = w.rest := by cases reverted <;> rfl

@[simp] theorem Runtime.finish_meter : (finish node reverted w).meter = w.meter := by cases reverted <;> rfl

@[simp] theorem Runtime.finish_receipt : (finish node reverted w).receipt = w.receipt := by
  cases reverted <;> rfl

end Finish

theorem Runtime.Finished.eq_finish {σ : Type} {rt : Runtime σ} {trx : Transaction} {w w' : World σ}
    {reverted : Option ChainException} (finished : rt.Finished trx w reverted w')
    (grounded : Grounded w.onTransactionNode (final (rt.operations trx w.onTransactionNode))) :
    w' = finish w.heap.size reverted (final (rt.operations trx w.onTransactionNode)) := by
  cases finished with
  | committed ran =>
    obtain ⟨_, w₁, operated, commits⟩ := bind_eq_ok ran
    obtain rfl := commitAnonymousNode_eq_ok commits
    rw [operated]
    rfl
  | reverted ran =>
    obtain ⟨-, rfl⟩ := grounded_of_operate_error grounded ran
    rfl

namespace Platform

variable {p : Platform} {intent : Intent} {trx : Transaction} {block : Block}

/-- Nothing in the journal applies a block or a transaction. -/
def AllCalm (w : World Host) : Prop := ∀ r ∈ w.rest.journal, r.Calm

instance (w : World Host) : Decidable (AllCalm w) := inferInstanceAs (Decidable (∀ r ∈ w.rest.journal, _))

section Chain

variable (p : Platform) (scope : Scope) (intent : Intent)

theorem chain_calls : (p.chain intent).calls.Move (p.Within scope Privileged) :=
  move_systemCalls (behaves_levels p intent stackLimit) fun _ => id

theorem chain_verifyBlock (block : Block) : Moves (p.Within scope Privileged) ((p.chain intent).verifyBlock block) :=
  moves_verifyBlock (chain_calls p scope intent) lenient_within block

theorem chain_afterTransactions (block : Block) :
    Moves (p.Within scope Privileged) ((p.chain intent).afterTransactions block) :=
  moves_afterTransactions (chain_calls p scope intent) block

/-- However a transaction of the block ends, it leaves the stack as it was and adds to the journal. -/
theorem chain_callApplyTransaction (trx : Transaction) :
    Moves (p.Within { calm := False } Privileged) ((p.chain intent).callApplyTransaction intent trx) :=
  moves_callApplyTransaction (behaves_levels p intent stackLimit) id id intent trx

theorem chain_applyTransactions (i : ℕ) (transactions : List Transaction) :
    Moves (Runtime.OnWorld (p.Within { calm := False } Privileged))
      ((p.chain intent).applyTransactions intent i transactions) :=
  moves_applyTransactions (chain_callApplyTransaction p intent) i transactions

end Chain

namespace Logs

variable {scope : Scope} {w w' : World Host} {new : List Incident}

theorem calm (logs : p.Logs scope w new w') (calm : AllCalm w') : AllCalm w ∧ ∀ r ∈ new, r.Calm := by
  rw [AllCalm, logs.journal] at calm
  exact List.forall_mem_append.mp calm

theorem toLocal (logs : p.Logs scope w new w') (isolated : scope.calm) (calm : AllCalm w') : p.Local w new w' :=
  logs.isolated isolated (logs.calm calm).2

end Logs

variable {w w' : World Host} {ctx : BlockContext Host} {node : ℕ}

theorem Within.logs {scope : Scope} (within : p.Within scope Privileged w w')
    (privileged : Privileged w.stack) : ∃ new, p.Logs scope w new w' := by
  obtain ⟨new, logs⟩ := within privileged
  exact ⟨new, logs.mono id id Or.inr⟩

/-- What ran under a privileged stack left the stack as it was and added to the journal. -/
theorem Within.grows {scope : Scope} (within : p.Within scope Privileged w w')
    (privileged : Privileged w.stack) : w'.stack = w.stack ∧ (AllCalm w' → AllCalm w) := by
  obtain ⟨new, logs⟩ := within privileged
  exact ⟨logs.stack, fun calm => (logs.calm calm).1⟩

/-- If the loop ends calmly, then so does every transaction that it reaches, under the stack of the loop. -/
theorem eachReached_calm {i : ℕ} {transactions : List Transaction} (privileged : Privileged ctx.world.stack)
    (calm : AllCalm (final ((p.chain intent).applyTransactions intent i transactions ctx)).world) :
    (p.chain intent).EachReached intent (fun trx w => w.stack = ctx.world.stack ∧
      AllCalm (final ((p.chain intent).callApplyTransaction intent trx w))) i transactions ctx := by
  induction transactions generalizing i ctx with
  | nil => exact .nil ctx
  | cons trx rest ih =>
    obtain ⟨stack, -⟩ := Within.grows (chain_callApplyTransaction p intent trx ctx.world) privileged
    rw [← (p.chain intent).world_applyTransactionAt intent i] at stack
    cases applied : (p.chain intent).applyTransactionAt intent i trx ctx with
    | error e ctx₁ =>
      rw [applyTransactions, bind_of_error applied] at calm
      refine .cons ⟨rfl, ?_⟩ (by rw [applied]; rintro _ ⟨⟩)
      rw [← (p.chain intent).world_applyTransactionAt intent i, applied]
      exact calm
    | ok _ ctx₁ =>
      rw [applyTransactions, bind_of_ok applied] at calm
      rw [applied] at stack
      have stack : ctx₁.world.stack = ctx.world.stack := stack
      have later := ih (stack ▸ privileged) calm
      rw [stack] at later
      refine .cons ⟨rfl, ?_⟩ (by rw [applied]; rintro _ ⟨⟩; exact later)
      rw [← (p.chain intent).world_applyTransactionAt intent i, applied]
      exact (Within.grows (chain_applyTransactions p intent (i + 1) rest ctx₁) (stack ▸ privileged)).2 calm

/-- A transaction that was applied in a block, with the worlds between its phases and what the journal tells of
each phase. -/
structure Transacted (p : Platform) (trx : Transaction) (w w' : World Host) where
  rc : UInt64
  reverted : Option ChainException
  opened : World Host
  ran : World Host
  outcome : EStateM.Result ChainException (World Host) Bool
  checks : List Incident
  operations : List Incident
  charge : List Incident
  bound : w.stateNode < w.heap.size
  concluded : (p.chain .blockApplication).Concluded trx w rc reverted opened
    (finish opened.heap.size reverted ran) outcome w'
  privileged : Privileged w.stack
  checking : p.Logs {} (w.beginTransaction trx) checks opened
  running : p.Logs { free := True } opened.onTransactionNode operations ran
  charging : p.Logs { free := True } (chargeWorld w.outerSessions opened.stateNode
    (finish opened.heap.size reverted ran)) charge (final outcome)
  calm : AllCalm w'

namespace Transacted

variable {w w' : World Host} (t : p.Transacted trx w w')

/-- The world in which the operations of the transaction are over. -/
def finished : World Host := finish t.opened.heap.size t.reverted t.ran

/-- The receipt of the transaction. -/
def receipt : TransactionReceipt :=
  (p.chain .blockApplication).settledReceipt trx t.rc t.reverted.isSome w.outerSessions w.meter t.finished
    (final t.outcome)

include t

theorem ends : ∃ receipt, w' = ((final t.outcome).endTransaction w.outerSessions).setReceipt receipt := by
  obtain ⟨old, -, ends⟩ := t.concluded.stored
  exact ⟨_, ends⟩

theorem localCharge :
    p.Local (chargeWorld w.outerSessions t.opened.stateNode t.finished) t.charge (final t.outcome) := by
  obtain ⟨receipt, ends⟩ := t.ends
  have calm := t.calm
  rw [ends] at calm
  exact t.charging.toLocal trivial calm

theorem calm_ran : AllCalm t.ran := by
  obtain ⟨receipt, ends⟩ := t.ends
  have calm := t.calm
  rw [ends] at calm
  have before := (t.charging.calm calm).1
  change ∀ r ∈ (finish _ _ t.ran).rest.journal, r.Calm at before
  rw [finish_rest] at before
  exact before

theorem calm_opened : AllCalm t.opened := (t.running.calm t.calm_ran).1

theorem localOperations : p.Local t.opened.onTransactionNode t.operations t.ran :=
  t.running.toLocal trivial t.calm_ran

theorem localChecks : p.Local (w.beginTransaction trx) t.checks t.opened :=
  t.checking.toLocal trivial t.calm_opened

/-- Nothing but the receipt of the transaction is added to the receipt of the block. -/
theorem receipt_eq {old : BlockReceipt} (stored : w.receipt = .block old) :
    w'.receipt = .block (old.addTransactionReceipt t.receipt) := by
  have kept : (final t.outcome).receipt = w.receipt := by
    rw [t.localCharge.receipt]
    change (finish _ _ t.ran).receipt = _
    rw [finish_receipt, t.localOperations.receipt]
    exact t.localChecks.receipt
  obtain ⟨old', stored', ends⟩ := t.concluded.stored
  rw [kept, stored] at stored'
  cases stored'
  exact congrArg World.receipt ends

/-- The payer is charged on the block's node, above which nothing that was there has changed. -/
theorem grounded_charge : Grounded t.opened (chargeWorld w.outerSessions t.opened.stateNode t.finished) := by
  have stack : t.opened.stack = w.stack := t.checking.stack
  have busy : ¬ ({ calm := False } : Scope).calm := id
  obtain ⟨new, logs⟩ := run_finished (behaves_levels p .blockApplication stackLimit) (stack ▸ t.privileged) busy
    w.outerSessions rfl t.concluded.finished
  exact logs.grounded

/-- The whole transaction leaves the nodes below the block's node as they are. -/
theorem grounded : Grounded w w' := by
  obtain ⟨receipt, ends⟩ := t.ends
  have begun : Grounded w (w.beginTransaction trx) := .of_eq rfl rfl
  have ended : Grounded (final t.outcome) w' :=
    .of_eq ((congrArg heap ends).trans rfl) ((congrArg stateNode ends).trans rfl)
  exact trans_of Grounded begun (trans_of Grounded t.checking.grounded
    (trans_of Grounded t.grounded_charge (trans_of Grounded t.charging.grounded ended)))

theorem stateNode_opened : t.opened.stateNode = w.stateNode := t.localChecks.stateNode

theorem stateNode : w'.stateNode = w.stateNode := by
  obtain ⟨receipt, ends⟩ := t.ends
  rw [congrArg World.stateNode ends, ← t.stateNode_opened]
  exact t.localCharge.stateNode

/-- The payer's session is there until the operations are over. -/
theorem session_opened : t.opened.session.isSome := t.localChecks.metered.session

/-- What the transaction uses is not system usage, except for the charge. -/
theorem spends : w.meter.Spends true t.ran.meter ∧ t.ran.meter.Spends false w'.meter := by
  have checks : w.meter.Spends true t.opened.meter := t.localChecks.metered.spends
  have operations := t.localOperations.metered.spends
  change t.opened.meter.Spends t.opened.session.isSome t.ran.meter at operations
  rw [t.session_opened] at operations
  refine ⟨checks.trans operations, ?_⟩
  obtain ⟨receipt, ends⟩ := t.ends
  have charge := t.localCharge.metered.spends
  change ResourceMeter.Spends false (finish _ _ t.ran).meter (final t.outcome).meter at charge
  rw [finish_meter] at charge
  rw [congrArg meter ends]
  exact charge

end Transacted

/-- A transaction whose end lets the loop go on. -/
theorem exists_transacted {rc : UInt64} {reverted : Option ChainException} {w₁ w₂ : World Host}
    {outcome : EStateM.Result ChainException (World Host) Bool} (privileged : Privileged w.stack)
    (bound : w.stateNode < w.heap.size)
    (concluded : (p.chain .blockApplication).Concluded trx w rc reverted w₁ w₂ outcome w') (calm : AllCalm w') :
    Nonempty (p.Transacted trx w w') := by
  obtain ⟨checks, checking⟩ := ((chain_checks p {} .blockApplication id trx).ok concluded.checked).logs privileged
  have stack : w₁.stack = w.stack := checking.stack
  obtain ⟨operations, running⟩ := (chain_operations p { free := True } .blockApplication trx w₁.onTransactionNode).logs
    (stack ▸ privileged)
  obtain rfl := concluded.finished.eq_finish running.grounded
  have stack' : (chargeWorld w.outerSessions w₁.stateNode (finish w₁.heap.size reverted
      (final ((p.chain .blockApplication).operations trx w₁.onTransactionNode)))).stack = w.stack := by
    change (finish _ _ _).stack = _
    rw [finish_stack, running.stack]
    exact stack
  obtain ⟨charge, charging⟩ := (chain_consumeAccountRc p { free := True } .blockApplication trx.header.payer _ _).logs
    (stack' ▸ privileged)
  rw [concluded.charged] at charging
  exact ⟨⟨rc, reverted, w₁, _, outcome, checks, operations, charge, bound, concluded, privileged, checking,
    running, charging, calm⟩⟩

/-- The stack of `apply_block`: the frame of the controller and the frame of the system call. -/
def nativeStack : List StackFrame := [.systemCall, .systemCall]

theorem privileged_nativeStack : Privileged nativeStack := by
  refine ⟨⟨by decide, by decide⟩, ?_⟩
  rintro frame ⟨⟩

/-- Local steps neither start nor end a session. -/
theorem Local.session {new : List Incident} (isolated : p.Local w new w') (none : w.session = none) :
    w'.session = .none := by
  have same := isolated.metered.session
  rw [none] at same
  exact Option.isNone_iff_eq_none.mp (Option.isSome_eq_false_iff.mp same)

/-- The context of a block outside its transactions. -/
structure Idle (node : ℕ) (w : World Host) : Prop where
  stack : w.stack = nativeStack
  stateNode : w.stateNode = node
  bound : node < w.heap.size
  session : w.session = none
  detached : w.detachedSessions = []
  transaction : w.transaction = none

namespace Idle

variable {node : ℕ} {w w' : World Host} {new : List Incident}

theorem privileged (idle : Idle node w) : Privileged w.stack := idle.stack ▸ privileged_nativeStack

theorem isolated (idle : Idle node w) (isolated : p.Local w new w') (stack : w'.stack = w.stack) : Idle node w' where
  stack := stack.trans idle.stack
  stateNode := isolated.stateNode.trans idle.stateNode
  bound := isolated.rewrites.size_eq ▸ idle.bound
  session := isolated.session idle.session
  detached := isolated.detached.trans idle.detached
  transaction := isolated.chronicled.transaction.trans idle.transaction

/-- The limits of the block are read and set. -/
theorem limited {entered read : World Host} {entering reading : List Incident} (inside : Idle node w)
    (enters : p.Local w entering entered) (stack : entered.stack = w.stack)
    (reads : p.Local (entered.openBlock block) reading read) (stack' : read.stack = entered.stack)
    (limits : ResourceLimitData) : Idle node { read with meter := .ofLimits limits } := by
  have opened : Idle node (entered.openBlock block) := { inside.isolated enters stack with }
  exact { opened.isolated reads stack' with }

end Idle

/-- A step in the frame of a system call, seen from outside. -/
theorem Local.popFrame {u : World Host} {new : List Incident} (isolated : p.Local w.inSystemCall new u) :
    p.Local w new u.popFrame := isolated.restack w.stack u.stack.tail

/-- What a transaction of a block does to the world of the loop, when the loop goes on. -/
inductive Round (p : Platform) (trx : Transaction) (w : World Host) : World Host → Prop
  | skipped {u : World Host} {new : List Incident}
      (outside : ¬ ∃ u, (p.chain .blockApplication).Enters trx w u)
      (entering : p.Logs { free := True } w.inSystemCall new u) (isolated : p.Local w.inSystemCall new u) :
      Round p trx w u.popFrame
  | applied {u u' : World Host} {new : List Incident} (enters : (p.chain .blockApplication).Enters trx w u)
      (entering : p.Logs { free := True } w.inSystemCall new u) (isolated : p.Local w.inSystemCall new u)
      (t : p.Transacted trx u u') : Round p trx w u'.popFrame

theorem Transacted.idle (t : p.Transacted trx w w') (stateNode : w.stateNode = node)
    (bound : node < w.heap.size) (session : w.session = none) (detached : w.detachedSessions = [])
    (stack : w'.stack.tail = nativeStack) : Idle node w'.popFrame := by
  obtain ⟨receipt, ends⟩ := t.ends
  have outer : w.outerSessions = [] := by rw [outerSessions, session, detached]; rfl
  refine ⟨stack, t.stateNode.trans stateNode, ?_, ?_, ?_, ?_⟩
  · have bound := t.grounded.bound (stateNode ▸ bound)
    rw [t.stateNode, stateNode] at bound
    exact bound
  · exact congrArg World.session ends
  · exact (congrArg detachedSessions ends).trans outer
  · exact congrArg transaction ends

theorem Transacted.stack (t : p.Transacted trx w w') : w'.stack = w.stack := by
  obtain ⟨receipt, ends⟩ := t.ends
  rw [congrArg World.stack ends]
  change (final t.outcome).stack = _
  rw [t.charging.stack]
  change (finish _ _ t.ran).stack = _
  rw [finish_stack, t.running.stack]
  exact t.checking.stack

theorem Idle.round (idle : Idle node w) (round : p.Round trx w w') : Idle node w' := by
  cases round with
  | skipped _ entering isolated => exact idle.isolated isolated.popFrame (congrArg List.tail entering.stack)
  | applied _ entering isolated t =>
    have entered := idle.isolated isolated.popFrame (congrArg List.tail entering.stack)
    refine t.idle entered.stateNode entered.bound entered.session entered.detached ?_
    rw [t.stack]
    exact entered.stack

/-- A transaction after which the loop goes on, and whose reversion can be logged. -/
theorem round_of_continues (idle : Idle node w) (loggable : (p.chain .blockApplication).Loggable trx w)
    (calm : AllCalm (final ((p.chain .blockApplication).callApplyTransaction .blockApplication trx w)))
    (continues : Runtime.Continues .blockApplication
      ((p.chain .blockApplication).callApplyTransaction .blockApplication trx w)) :
    p.Round trx w (final ((p.chain .blockApplication).callApplyTransaction .blockApplication trx w)) := by
  have room : w.stack.length < stackLimit := by rw [idle.stack]; decide
  have privileged : Privileged w.inSystemCall.stack := ⟨idle.privileged.1.cons room _, idle.privileged.2⟩
  have entered := (chain_calls p { free := True } .blockApplication).enter (.applyTransaction trx)
  rcases callApplyTransaction_cases .blockApplication trx room with
    ⟨u, enters, ends, same⟩ | ⟨outside, ends⟩
  · obtain ⟨new, logs⟩ := (entered.ok enters).logs privileged
    have bound : u.stateNode < u.heap.size := logs.grounded.bound (idle.stateNode ▸ idle.bound)
    have stack : u.stack = .systemCall :: nativeStack := logs.stack.trans (congrArg _ idle.stack)
    have admitted : u.getCallerPrivilege = .kernelMode := by
      rw [getCallerPrivilege, caller, stack]
      rfl
    have run := (p.chain .blockApplication).transactionRun .blockApplication trx u
    obtain ⟨rc, reverted, w₁, w₂, outcome, concluded⟩ := run.concluded admitted (same.mp continues)
      fun rc w₁ e w₂ => loggable u rc w₁ e w₂ enters
    rw [ends] at calm ⊢
    obtain ⟨t⟩ := exists_transacted (logs.stack ▸ privileged) bound concluded calm
    have begun : AllCalm u := (t.checking.calm t.calm_opened).1
    exact .applied enters logs (logs.toLocal trivial begun) t
  · obtain ⟨new, logs⟩ := (entered w.inSystemCall).logs privileged
    rw [ends] at calm ⊢
    exact .skipped outside logs (logs.toLocal trivial calm)

/-- `apply_block` up to the loop, with the worlds between its phases and what the journal tells of each phase. -/
structure Opened (p : Platform) (block : Block) (w start : World Host) where
  entered : World Host
  read : World Host
  verified : World Host
  limits : ResourceLimitData
  entering : List Incident
  reading : List Incident
  verifying : List Incident
  enters : p.Logs { free := True } w.inSystemCall entering entered
  reads : p.Logs { free := True } (entered.openBlock block) reading read
  verifies : p.Logs { free := True } { read with meter := .ofLimits limits } verifying verified
  writes : (p.chain .blockApplication).putHeadBlock block verified = .ok () start

/-- Where the head block is stored. -/
def headKey (p : Platform) : Bytes := p.codec.serialize ⟨p.space .metadata, p.objectKey "head_block"⟩

theorem putHeadBlock_eq_ok (writes : (p.chain intent).putHeadBlock block w = .ok () w') :
    w' = { w with heap := w.heap.put w.stateNode p.headKey (p.encoding.block block) } := by
  rw [putHeadBlock, get_bind] at writes
  cases outcome : w.heap.putObject (p.chain intent).codec w.stateNode (p.chain intent).encoding.metadata
      ((p.chain intent).objectKey "head_block") ((p.chain intent).encoding.block block) with
  | error e =>
    rw [outcome] at writes
    contradiction
  | ok written =>
    rw [outcome] at writes
    cases writes
    rw [Heap.putObject] at outcome
    split at outcome
    · contradiction
    cases outcome
    rfl

/-- The loop was reached. -/
theorem exists_opened {start : BlockContext Host} (privileged : Privileged ctx.world.inSystemCall.stack)
    (reaches : (p.chain .blockApplication).reachTransactions block ctx = .ok () start) :
    Nonempty (p.Opened block ctx.world start.world) := by
  obtain ⟨u, v, v', limits, enters, -, reads, verifies, writes⟩ := reachTransactions_eq_ok reaches
  have calls := chain_calls p { free := True } .blockApplication
  obtain ⟨entering, entered⟩ := ((calls.enter (.applyBlock block)).ok enters).logs privileged
  have stack : u.stack = ctx.world.inSystemCall.stack := entered.stack
  obtain ⟨reading, read⟩ := (calls.getResourceLimits.ok reads).logs (stack ▸ privileged)
  have stack' : v.stack = u.stack := read.stack
  obtain ⟨verifying, verified⟩ := ((chain_verifyBlock p { free := True } .blockApplication block).ok verifies).logs
    (stack' ▸ stack ▸ privileged)
  exact ⟨⟨u, v, v', limits, entering, reading, verifying, entered, read, verified, writes⟩⟩

namespace Opened

variable {w start : World Host} (o : p.Opened block w start)

include o

theorem start_eq : start = { o.verified with
    heap := o.verified.heap.put o.verified.stateNode p.headKey (p.encoding.block block) } :=
  putHeadBlock_eq_ok o.writes

theorem stack : start.stack = w.inSystemCall.stack := by
  rw [o.start_eq]
  change o.verified.stack = _
  rw [o.verifies.stack]
  change o.read.stack = _
  rw [o.reads.stack]
  exact o.enters.stack

variable (calm : AllCalm start)

include calm

theorem calm_verified : AllCalm o.verified := by
  rw [o.start_eq] at calm
  exact calm

theorem calm_read : AllCalm o.read := (o.verifies.calm (o.calm_verified calm)).1

theorem localEnter : p.Local w.inSystemCall o.entering o.entered :=
  o.enters.toLocal trivial (o.reads.calm (o.calm_read calm)).1

theorem localRead : p.Local (o.entered.openBlock block) o.reading o.read :=
  o.reads.toLocal trivial (o.calm_read calm)

theorem localVerify : p.Local { o.read with meter := .ofLimits o.limits } o.verifying o.verified :=
  o.verifies.toLocal trivial (o.calm_verified calm)

theorem receipt : start.receipt = .block {} := by
  rw [o.start_eq]
  change o.verified.receipt = _
  rw [(o.localVerify calm).receipt]
  exact (o.localRead calm).receipt

theorem idle {node : ℕ} (inside : Idle node w.inSystemCall) :
    Idle node { o.read with meter := .ofLimits o.limits } ∧ Idle node start := by
  have limited := inside.limited (o.localEnter calm) o.enters.stack (o.localRead calm) o.reads.stack o.limits
  refine ⟨limited, ?_⟩
  have verified := limited.isolated (o.localVerify calm) o.verifies.stack
  rw [o.start_eq]
  exact { verified with }

end Opened

section Loop

variable {node : ℕ} {start reached : BlockContext Host} {transactions : List Transaction}

/-- The first round of a loop. -/
theorem loop_cons {i : ℕ} (idle : Idle node start.world) (calm : AllCalm reached.world)
    (ok : (p.chain .blockApplication).applyTransactions .blockApplication i (trx :: transactions) start =
      .ok () reached) (loggable : (p.chain .blockApplication).Loggable trx start.world) :
    ∃ ctx, (p.chain .blockApplication).applyTransactionAt .blockApplication i trx start = .ok () ctx ∧
      (p.chain .blockApplication).applyTransactions .blockApplication (i + 1) transactions ctx = .ok () reached ∧
      final ((p.chain .blockApplication).callApplyTransaction .blockApplication trx start.world) = ctx.world ∧
      p.Round trx start.world ctx.world ∧ Idle node ctx.world := by
  have ends : AllCalm (final ((p.chain .blockApplication).applyTransactions .blockApplication i (trx :: transactions)
      start)).world := by
    rw [ok]
    exact calm
  have each := eachReached_calm idle.privileged ends
  obtain ⟨_, ctx, applied, rest⟩ := bind_eq_ok ok
  have round := round_of_continues idle loggable each.head.2 (applyTransactionAt_eq_ok applied)
  have same := (p.chain .blockApplication).world_applyTransactionAt .blockApplication i trx start
  rw [applied] at same
  have same : ctx.world = _ := same
  rw [← same] at round
  exact ⟨ctx, applied, rest, same.symm, round, idle.round round⟩

/-- What a round does to a property of the transactions so far and the world, the loop does. -/
theorem loop_invariant {property : Transaction → World Host → Prop} {holds : List Transaction → World Host → Prop}
    (loggable : ∀ trx w, property trx w → (p.chain .blockApplication).Loggable trx w)
    (step : ∀ done trx w w', Idle node w → holds done w → property trx w → p.Round trx w w' → holds (done ++ [trx]) w')
    (idle : Idle node start.world) (calm : AllCalm reached.world)
    (each : (p.chain .blockApplication).EachReached .blockApplication property 0 transactions start)
    (ok : (p.chain .blockApplication).applyTransactions .blockApplication 0 transactions start = .ok () reached)
    (begins : holds [] start.world) : Idle node reached.world ∧ holds transactions reached.world := by
  have calms : (p.chain .blockApplication).EachReached .blockApplication (fun trx w => w.stack = start.world.stack ∧
      AllCalm (final ((p.chain .blockApplication).callApplyTransaction .blockApplication trx w))) 0 transactions
      start := by
    apply eachReached_calm idle.privileged
    rw [ok]
    exact calm
  have both : (p.chain .blockApplication).EachReached .blockApplication (fun trx w => property trx w ∧
      AllCalm (final ((p.chain .blockApplication).callApplyTransaction .blockApplication trx w))) 0 transactions
      start :=
    fun before trx after reached split ran =>
      ⟨each before trx after reached split ran, (calms before trx after reached split ran).2⟩
  let invariant : List Transaction → World Host → Prop := fun done w => Idle node w ∧ holds done w
  have ends : invariant ([] ++ transactions) reached.world := by
    refine applyTransactions_invariant ?_ both ok ⟨idle, begins⟩
    rintro done trx w ⟨idle, before⟩ ⟨here, calm⟩ continues
    have round := round_of_continues idle (loggable trx w here) calm continues
    exact ⟨idle.round round, step done trx w _ idle before here round⟩
  exact ends

end Loop

/-- The context in which the controller applies a block. -/
abbrev blockContext (heap : Heap) (node : ℕ) : BlockContext Host := .ofBlockNode heap node {}

theorem idle_blockContext {heap : Heap} (bound : node < heap.size) :
    Idle node (blockContext heap node).world.inSystemCall := ⟨rfl, rfl, bound, rfl, rfl, rfl⟩

/-- A block that was applied, with the worlds between the phases of `apply_block`. -/
structure Applied (p : Platform) (block : Block) (heap : Heap) (node : ℕ) (receipt : BlockReceipt)
    (w : World Host) where
  start : BlockContext Host
  reached : BlockContext Host
  consumed : World Host
  charged : ResourceMeter
  old : BlockReceipt
  new : List Incident
  reaches : (p.chain .blockApplication).reachTransactions block (blockContext heap node) = .ok () start
  loops : (p.chain .blockApplication).applyTransactions .blockApplication 0 block.transactions start = .ok () reached
  consumes : (p.chain .blockApplication).afterTransactions block reached.world = .ok charged consumed
  consuming : p.Local reached.world new consumed
  stored : reached.world.receipt = .block old
  receipt_eq : receipt = (p.chain .blockApplication).fillBlockReceipt block charged consumed old
  ends : w = popFrame { consumed with receipt := .block receipt, block := none }
  opened : p.Opened block (blockContext heap node).world start.world
  calm : AllCalm reached.world
  calm_start : AllCalm start.world

/-- A block that was applied went through the phases of `apply_block`. -/
theorem exists_applied {heap : Heap} {receipt : BlockReceipt}
    (applied : (p.chain .blockApplication).controllerApplyBlock false block (blockContext heap node) = .ok receipt ctx)
    (calm : AllCalm ctx.world) : Nonempty (p.Applied block heap node receipt ctx.world) := by
  obtain ⟨called, -, stored⟩ := controllerApplyBlock_eq_ok_iff.mp applied
  have privileged : Privileged (blockContext heap node).world.inSystemCall.stack := privileged_nativeStack
  rcases callApplyBlock_eq_ok called with
    ⟨start, reached, charged, w, old, reaches, loops, after, kept, ends⟩ | ⟨w, overridden, ends⟩
  · obtain ⟨o⟩ := exists_opened privileged reaches
    have stack : Privileged start.world.stack := o.stack ▸ privileged
    have loop := Within.grows ((chain_applyTransactions p .blockApplication 0 block.transactions).ok loops) stack
    have receipt_eq : receipt = (p.chain .blockApplication).fillBlockReceipt block charged w old := by
      rw [ends] at stored
      exact (Receipt.block.inj stored).symm
    rw [ends] at calm
    obtain ⟨new, logs⟩ := ((chain_afterTransactions p {} .blockApplication block).ok after).logs (loop.1 ▸ stack)
    have consuming := logs.toLocal trivial calm
    have calm' := (logs.calm calm).1
    exact ⟨⟨start, reached, w, charged, old, new, reaches, loops, after, consuming, consuming.receipt.symm.trans kept,
      receipt_eq, receipt_eq ▸ ends, o, calm', loop.2 calm'⟩⟩
  · obtain ⟨new, logs⟩ :=
      (((chain_calls p {} .blockApplication).enter (.applyBlock block)).ok overridden).logs privileged
    rw [ends] at calm stored
    have kept : w.receipt = .none := (logs.toLocal trivial calm).receipt
    have stored : w.receipt = .block receipt := stored
    rw [kept] at stored
    contradiction

namespace Applied

variable {heap : Heap} {node : ℕ} {receipt : BlockReceipt} {w : World Host} (a : p.Applied block heap node receipt w)

include a

theorem idle (bound : node < heap.size) : Idle node a.start.world :=
  (a.opened.idle a.calm_start (idle_blockContext bound)).2

theorem transactionReceipts : receipt.transactionReceipts = a.old.transactionReceipts :=
  (congrArg BlockReceipt.transactionReceipts a.receipt_eq).trans rfl

end Applied

section Sample

/-- A transaction without operations. -/
def plainTransaction : Transaction := { garblingTransaction with operations := [] }

/-- A block with one transaction. -/
def singleBlock (trx : Transaction) : Block where
  transactions := [trx]
  signature := List.replicate 65 0

/-- A block with a call of a contract that does not exist and a transaction without operations. -/
def mixedBlock : Block where
  transactions := [{ garblingTransaction with operations := [.callContract { contractId := [9] }] },
    { plainTransaction with header := { nonce := [0, 0], rcLimit := 1000 } }]
  signature := List.replicate 65 0

end Sample

end Platform

end Teleno.Chain
