import Teleno.Chain.SystemCalls

/-! # Proposing a block and applying it

A block is proposed to learn which of its transactions fail, and later applied by every node. The two
intents part in two handlers. In the transaction loop a failure that leaves `apply_transaction` is
noted in a proposal and thrown otherwise. Inside `apply_transaction` a failure raised by the
operations phase is thrown when a block is applied, but a proposal returns as if the transaction had
succeeded, without a receipt and without an index. So a proposal without failed indices agrees with
the application of the block exactly when no operations phase fails.
-/

namespace Teleno.Chain

open Library StateDb Exec BlockContext List

variable {σ : Type}

namespace Runtime

variable (rt : Runtime σ)

/-- An override runs in the place of the thunk. -/
def overridden : ChainException := ⟨.foreign, text "overridden", []⟩

/-- `system_call::apply_transaction` up to its operations phase, without the cleanup. -/
def reachOperations (trx : Transaction) : WorldM σ (OpenedTransaction × TransactionFrame σ) := do
  World.pushFrame .systemCall
  require (← rt.calls.enter (.applyTransaction trx)) overridden
  TransactionFrame.withLocals do
    admitTransaction .blockApplication
    let opened ← rt.openTransaction trx
    let frame ← get
    pure (opened, frame)

/-- The transaction, applied in this world, gets to its operations and these raise a failure. -/
def OperationsFail (trx : Transaction) (w : World σ) : Prop :=
  match rt.reachOperations trx w with
  | .ok reached _ => Throws (·.isFailure) (rt.runOperations trx reached.1) reached.2.world
  | .error _ _ => False

instance (trx : Transaction) (w : World σ) : Decidable (rt.OperationsFail trx w) :=
  match outcome : rt.reachOperations trx w with
  | .ok reached _ =>
    decidable_of_iff (Throws (·.isFailure) (rt.runOperations trx reached.1) reached.2.world)
      (by rw [OperationsFail, outcome])
  | .error _ _ => .isFalse (by rw [OperationsFail, outcome]; exact id)

section Transaction

variable {rt} {trx : Transaction} {opened : OpenedTransaction}

variable {frame : TransactionFrame σ} {w : World σ} {intent : Intent} {e : ChainException}

theorem applyOperations_agree (clean : ¬ Throws (·.isFailure) (rt.runOperations trx opened) frame.world) :
    rt.applyOperations .blockProposal trx opened frame =
      rt.applyOperations .blockApplication trx opened frame := by
  refine tryCatch_congr_at rfl fun e frame' thrown => ?_
  rcases bind_eq_error thrown with thrown | ⟨_, _, _, thrown⟩
  · obtain ⟨w, thrown, -⟩ := within_eq_error thrown
    cases type : e.type with
    | failure kind => exact (clean ⟨e, w, thrown, ChainException.isFailure_iff.mpr ⟨kind, type⟩⟩).elim
    | reversion | success | otherKoinos | foreign => rfl
  · contradiction

theorem transactionBody_agree
    (clean : ∀ admitted opened reached, admitTransaction .blockApplication frame = .ok () admitted →
      rt.openTransaction trx admitted = .ok opened reached →
      ¬ Throws (·.isFailure) (rt.runOperations trx opened) reached.world) :
    rt.transactionBody .blockProposal trx frame = rt.transactionBody .blockApplication trx frame := by
  refine bind_congr_at rfl fun _ admitted admits => within_congr_at ?_
  refine bind_congr_at rfl fun opened reached opens => ?_
  refine bind_congr_at (applyOperations_agree (clean _ _ _ admits opens)) fun outcome _ _ => ?_
  cases outcome <;> rfl

/-- Without a failure in the operations phase the two intents apply a transaction alike. -/
theorem callApplyTransaction_agree (clean : ¬ rt.OperationsFail trx w) :
    rt.callApplyTransaction .blockProposal trx w = rt.callApplyTransaction .blockApplication trx w := by
  refine bind_congr_at rfl fun _ pushed pushes => within_congr_at ?_
  refine bind_congr_at rfl fun runs entered enters => ?_
  cases runs with
  | false => rfl
  | true => ?_
  change rt.applyTransaction .blockProposal trx entered = rt.applyTransaction .blockApplication trx entered
  unfold applyTransaction
  refine within_congr_at (bind_congr_at ?_ fun _ _ _ => rfl)
  refine tryCatch_congr_at (transactionBody_agree ?_) fun _ _ _ => rfl
  intro admitted opened reached admits opens fails
  have reaches : rt.reachOperations trx w = .ok (opened, reached) reached.world :=
    (bind_of_ok pushes).trans ((bind_of_ok enters).trans ((bind_of_ok (require_true _ _)).trans
      (within_of_ok ((bind_of_ok admits).trans (bind_of_ok opens)))))
  rw [OperationsFail, reaches] at clean
  exact clean fails

theorem applyOperations_throws (fails : Throws (·.isFailure) (rt.runOperations trx opened) frame.world) :
    Throws (·.isFailure) (rt.applyOperations .blockApplication trx opened) frame := by
  refine Throws.handled fails.within.bind fun e s isFailure => ⟨e, s, ?_, isFailure⟩
  obtain ⟨kind, type⟩ := ChainException.isFailure_iff.mp isFailure
  simp only [type]
  rfl

theorem storeReceipt_throws {receipt : TransactionReceipt} {w' : World σ}
    (thrown : storeReceipt intent receipt w = .error e w') : e.isFailure := by
  have expected (thrown : addTransactionReceipt receipt w = .error e w') : e.isFailure := by
    rw [addTransactionReceipt, get_bind] at thrown
    cases stored : w.receipt <;> simp only [stored] at thrown <;> cases thrown <;> rfl
  cases intent with
  | blockApplication | blockProposal => exact expected thrown
  | transactionApplication | readOnly => contradiction

/-- The only exception of `recordReceipt` is a failure. -/
theorem recordReceipt_throws {frame' : TransactionFrame σ}
    (thrown : rt.recordReceipt intent trx frame = .error e frame') : e.isFailure := by
  rcases bind_eq_error thrown with thrown | ⟨_, _, _, thrown⟩
  · contradiction
  rcases bind_eq_error thrown with thrown | ⟨_, _, _, thrown⟩
  · contradiction
  obtain ⟨w, thrown, -⟩ := within_eq_error thrown
  exact storeReceipt_throws thrown

theorem rethrowWithReceipt_throws (isFailure : e.isFailure) (frame : TransactionFrame σ) :
    Throws (·.isFailure) (rt.rethrowWithReceipt intent trx e) frame := by
  unfold rethrowWithReceipt
  split
  · cases recorded : rt.recordReceipt intent trx frame with
    | ok _ frame' => exact .of_bind recorded ⟨e, frame', rfl, isFailure⟩
    | error e' frame' => exact .bind ⟨e', frame', recorded, recordReceipt_throws recorded⟩
  · exact ⟨e, frame, rfl, isFailure⟩

/-- When a block is applied, a failure of the operations phase leaves `apply_transaction`. -/
theorem callApplyTransaction_throws (fails : rt.OperationsFail trx w) :
    Throws (·.isFailure) (rt.callApplyTransaction .blockApplication trx) w := by
  cases reaches : rt.reachOperations trx w with
  | error e w' =>
    rw [OperationsFail, reaches] at fails
    exact fails.elim
  | ok reached w' =>
    rw [OperationsFail, reaches] at fails
    obtain ⟨_, pushed, pushes, reaches⟩ := bind_eq_ok reaches
    obtain ⟨_, entered, enters, reaches⟩ := bind_eq_ok reaches
    obtain ⟨_, _, runs, reaches⟩ := bind_eq_ok reaches
    obtain ⟨rfl, rfl⟩ := require_eq_ok_iff.mp runs
    obtain ⟨frame, located, -⟩ := within_eq_ok reaches
    obtain ⟨_, admitted, admits, located⟩ := bind_eq_ok located
    obtain ⟨opened, frame', opens, located⟩ := bind_eq_ok located
    cases located
    refine .of_bind pushes (.within (.of_bind enters ?_))
    change Throws _ (rt.applyTransaction .blockApplication trx) _
    unfold applyTransaction
    refine .within (.bind (.handled ?_ fun e frame isFailure => rethrowWithReceipt_throws isFailure frame))
    exact .of_bind admits (.within (.of_bind opens (applyOperations_throws fails).bind))

end Transaction

section Loop

variable {rt} {trx : Transaction} {ctx : BlockContext σ}

/-- A failure of the operations phase ends the application of a block. -/
theorem applyTransactionAt_throws (i : ℕ) (fails : rt.OperationsFail trx ctx.world) :
    Throws (·.isFailure) (rt.applyTransactionAt .blockApplication i trx) ctx := by
  refine .handled (callApplyTransaction_throws fails).within fun e ctx' isFailure => ?_
  obtain ⟨kind, type⟩ := ChainException.isFailure_iff.mp isFailure
  simp only [type]
  exact ⟨_, ctx', rfl, (e.isFailure_capture _ _).trans isFailure⟩

theorem failed_onWorld {α : Type} (program : WorldM σ α) (ctx : BlockContext σ) :
    (final (onWorld program ctx)).failedTransactionIndices =
      ctx.failedTransactionIndices := by
  rw [final_within]
  rfl

/-- One round notes its index or none. -/
theorem failed_applyTransactionAt (intent : Intent) (i : ℕ) (trx : Transaction) (ctx : BlockContext σ) :
    ∃ noted, noted.Sublist [i] ∧ (final (rt.applyTransactionAt intent i trx ctx)).failedTransactionIndices =
      ctx.failedTransactionIndices ++ noted := by
  have kept := failed_onWorld (rt.callApplyTransaction intent trx) ctx
  have none : ∃ noted, noted.Sublist [i] ∧ ctx.failedTransactionIndices = ctx.failedTransactionIndices ++ noted :=
    ⟨[], nil_sublist _, (append_nil _).symm⟩
  unfold applyTransactionAt
  cases outcome : onWorld (rt.callApplyTransaction intent trx) ctx with
  | ok _ ctx' =>
    rw [outcome, final] at kept
    rw [tryCatch_of_ok outcome, final, kept]
    exact none
  | error e ctx' =>
    rw [outcome, final] at kept
    rw [tryCatch_of_error outcome, ← kept]
    rw [← kept] at none
    cases e.type with
    | failure kind =>
      dsimp only
      split
      · exact ⟨[i], Sublist.refl _, rfl⟩
      · exact none
    | reversion | success | otherKoinos | foreign => exact none

/-- The loop notes indices of its transactions, in ascending order. -/
theorem failed_applyTransactions (intent : Intent) (i : ℕ) (transactions : List Transaction) (ctx : BlockContext σ) :
    ∃ noted, noted.Sublist (range' i transactions.length) ∧
      (final (rt.applyTransactions intent i transactions ctx)).failedTransactionIndices =
        ctx.failedTransactionIndices ++ noted := by
  induction transactions generalizing i ctx with
  | nil => exact ⟨[], nil_sublist _, (append_nil _).symm⟩
  | cons trx rest ih =>
    obtain ⟨noted, within, first⟩ := rt.failed_applyTransactionAt intent i trx ctx
    rw [applyTransactions, length_cons, range'_succ]
    cases outcome : rt.applyTransactionAt intent i trx ctx with
    | ok _ ctx' =>
      obtain ⟨noted', within', others⟩ := ih (i + 1) ctx'
      rw [outcome, final] at first
      rw [bind_of_ok outcome, others, first, append_assoc]
      exact ⟨noted ++ noted', within.append within', rfl⟩
    | error e ctx' =>
      rw [outcome] at first
      rw [bind_of_error outcome]
      exact ⟨noted, within.trans (sublist_append_left [i] _), first⟩

variable {i : ℕ}

/-- A round that notes no index and meets no failure of the operations phase is the same under both
intents. -/
theorem applyTransactionAt_agree (clean : ¬ rt.OperationsFail trx ctx.world)
    (unnoted : (final (rt.applyTransactionAt .blockProposal i trx ctx)).failedTransactionIndices = []) :
    rt.applyTransactionAt .blockProposal i trx ctx = rt.applyTransactionAt .blockApplication i trx ctx := by
  have calls : onWorld (rt.callApplyTransaction .blockProposal trx) ctx =
      onWorld (rt.callApplyTransaction .blockApplication trx) ctx :=
    within_congr_at (callApplyTransaction_agree clean)
  refine tryCatch_congr_at calls fun e ctx' thrown => ?_
  cases type : e.type with
  | failure kind =>
    rw [applyTransactionAt, tryCatch_of_error (calls.trans thrown)] at unnoted
    simp only [type] at unnoted
    exact absurd unnoted (append_ne_nil_of_right_ne_nil _ (cons_ne_nil _ _))
  | reversion | success | otherKoinos | foreign => rfl

/-- The loops agree if no index is noted and no transaction's operations fail where the application
of the block reaches it. -/
theorem applyTransactions_agree {transactions : List Transaction}
    (clean : ∀ before trx after reached, transactions = before ++ trx :: after →
      rt.applyTransactions .blockApplication i before ctx = .ok () reached → ¬ rt.OperationsFail trx reached.world)
    (unnoted :
      (final (rt.applyTransactions .blockProposal i transactions ctx)).failedTransactionIndices = []) :
    rt.applyTransactions .blockProposal i transactions ctx =
      rt.applyTransactions .blockApplication i transactions ctx := by
  induction transactions generalizing i ctx with
  | nil => rfl
  | cons trx rest ih =>
    have round : rt.applyTransactionAt .blockProposal i trx ctx =
        rt.applyTransactionAt .blockApplication i trx ctx := by
      refine applyTransactionAt_agree (clean [] trx rest ctx rfl rfl) ?_
      cases outcome : rt.applyTransactionAt .blockProposal i trx ctx with
      | ok _ ctx' =>
        rw [applyTransactions, bind_of_ok outcome] at unnoted
        obtain ⟨noted, -, after⟩ := rt.failed_applyTransactions .blockProposal (i + 1) rest ctx'
        exact (append_eq_nil_iff.mp (after.symm.trans unnoted)).1
      | error e ctx' =>
        rw [applyTransactions, bind_of_error outcome] at unnoted
        exact unnoted
    refine bind_congr_at round fun _ ctx' returns => ih ?_ ?_
    · intro before trx' after reached split reaches
      exact clean (trx :: before) trx' after reached (by rw [split, cons_append])
        ((bind_of_ok returns).trans reaches)
    · rw [applyTransactions, bind_of_ok (round.trans returns)] at unnoted
      exact unnoted

/-- An exception met by the loop after some transactions is thrown by the whole loop. -/
theorem applyTransactions_throws {kind : ChainException → Prop} {intent : Intent} {before after : List Transaction}
    {reached : BlockContext σ} (reaches : rt.applyTransactions intent i before ctx = .ok () reached)
    (err : ∀ j, Throws kind (rt.applyTransactions intent j after) reached) :
    Throws kind (rt.applyTransactions intent i (before ++ after)) ctx := by
  induction before generalizing i ctx with
  | nil =>
    cases reaches
    exact err i
  | cons trx before ih =>
    obtain ⟨_, ctx', ok, reaches⟩ := bind_eq_ok reaches
    exact .of_bind ok (ih reaches)

end Loop

/-- `system_call::apply_block` up to the transaction loop, without the cleanup. -/
def reachTransactions (block : Block) : BlockM σ Unit := do
  onWorld (World.pushFrame .systemCall)
  require (← onWorld (rt.calls.enter (.applyBlock block))) overridden
  onWorld (modify fun w => { w with receipt := .block {} })
  admitBlock .blockApplication
  onWorld (modify fun w => { w with block := some block })
  onWorld (rt.beforeTransactions block)

/-- Where the application of the block reaches a transaction, the operations of that transaction do
not raise a failure. -/
def OperationsNeverFail (block : Block) (ctx : BlockContext σ) : Prop :=
  ∀ before trx after start reached, block.transactions = before ++ trx :: after →
    rt.reachTransactions block ctx = .ok () start →
    rt.applyTransactions .blockApplication 0 before start = .ok () reached →
    ¬ rt.OperationsFail trx reached.world

section Block

variable {rt} {block : Block} {ctx start : BlockContext σ}

/-- The rest of `apply_block` from the transaction loop on. -/
def finishBlock (rt : Runtime σ) (intent : Intent) (block : Block) : BlockM σ Unit :=
  bracket (fun ctx => ctx.setWorld ctx.world.popFrame) do
    try
      bracket closeBlock do
        rt.applyTransactions intent 0 block.transactions
        let charged ← onWorld (rt.afterTransactions block)
        onWorld (rt.generateBlockReceipt block charged)
    catch e =>
      rt.rethrowWithBlockReceipt block e

theorem callApplyBlock_of_reached (reaches : rt.reachTransactions block ctx = .ok () start)
    (proposeBlock : Bool) : rt.callApplyBlock (blockIntent proposeBlock) block ctx =
      rt.finishBlock (blockIntent proposeBlock) block start := by
  obtain ⟨_, pushed, pushes, reaches⟩ := bind_eq_ok reaches
  obtain ⟨_, entered, enters, reaches⟩ := bind_eq_ok reaches
  obtain ⟨_, _, runs, reaches⟩ := bind_eq_ok reaches
  obtain ⟨rfl, rfl⟩ := require_eq_ok_iff.mp runs
  obtain ⟨_, marked, marks, reaches⟩ := bind_eq_ok reaches
  obtain ⟨_, admitted, admits, reaches⟩ := bind_eq_ok reaches
  obtain ⟨_, opened, opens, reaches⟩ := bind_eq_ok reaches
  have admits : admitBlock (blockIntent proposeBlock) marked = .ok () admitted := by
    cases proposeBlock <;> exact admits
  refine (bind_of_ok pushes).trans (bracket_congr ?_)
  refine (bind_of_ok enters).trans ((bind_of_ok marks).trans (tryCatch_congr ?_))
  exact (bind_of_ok admits).trans ((bind_of_ok opens).trans (bracket_congr (bind_of_ok reaches)))

/-- If the loops agree where they start, the intents apply the block alike. -/
theorem callApplyBlock_agree (loops : ∀ start, rt.reachTransactions block ctx = .ok () start →
      rt.applyTransactions .blockProposal 0 block.transactions start =
        rt.applyTransactions .blockApplication 0 block.transactions start) :
    rt.callApplyBlock .blockProposal block ctx = rt.callApplyBlock .blockApplication block ctx := by
  refine bind_congr_at rfl fun _ pushed pushes => within_congr_at ?_
  refine bind_congr_at rfl fun runs entered enters => ?_
  cases runs with
  | false => rfl
  | true => ?_
  change rt.applyBlock .blockProposal block entered = rt.applyBlock .blockApplication block entered
  refine bind_congr_at rfl fun _ marked marks => ?_
  refine tryCatch_congr_at ?_ fun _ _ _ => rfl
  refine bind_congr_at rfl fun _ admitted admits => bind_congr_at rfl fun _ opened opens => ?_
  refine within_congr_at (bind_congr_at rfl fun _ start starts => ?_)
  refine bind_congr_at (loops start ?_) fun _ _ _ => rfl
  exact (bind_of_ok pushes).trans ((bind_of_ok enters).trans ((bind_of_ok (require_true _ _)).trans
    ((bind_of_ok marks).trans ((bind_of_ok admits).trans ((bind_of_ok opens).trans starts)))))

theorem rethrowWithBlockReceipt_throws (e : ChainException) (ctx : BlockContext σ) :
    Throws (fun _ => True) (rt.rethrowWithBlockReceipt block e) ctx := by
  refine .of_bind rfl ?_
  cases generated : onWorld (rt.generateBlockReceipt block ctx.world.meter) ctx with
  | ok _ ctx' => exact .of_bind generated ⟨e, ctx', rfl, trivial⟩
  | error e' ctx' => exact .bind ⟨e', ctx', generated, trivial⟩

theorem finishBlock_throws {intent : Intent}
    (err : Throws (·.isFailure) (rt.applyTransactions intent 0 block.transactions) start) :
    Throws (fun _ => True) (rt.finishBlock intent block) start := by
  obtain ⟨e, ctx, thrown, _⟩ := err
  refine .within (.handled (.within (.bind ⟨e, ctx, thrown, trivial⟩)) fun e ctx _ => ?_)
  exact rethrowWithBlockReceipt_throws e ctx

theorem admitBlock_cases (intent : Intent) (ctx : BlockContext σ) : (∃ e, admitBlock intent ctx = .error e ctx) ∨
    admitBlock intent ctx = .ok () ctx ∧ ctx.world.getCallerPrivilege = .kernelMode := by
  rw [admitBlock, get_bind, requireKernelMode]
  split_ifs with kernel
  · rcases Bool.eq_false_or_eq_true (intent = .blockApplication || intent = .blockProposal) with expected | other
    · rw [expected]
      exact .inr ⟨rfl, kernel⟩
    · rw [other]
      exact .inl ⟨_, rfl⟩
  · exact .inl ⟨_, rfl⟩

theorem failed_rethrowWithBlockReceipt (block : Block) (e : ChainException) (ctx : BlockContext σ) :
    (final (rt.rethrowWithBlockReceipt block e ctx)).failedTransactionIndices = ctx.failedTransactionIndices :=
  final_bind failedTransactionIndices fun _ ctx =>
    (final_bind _ fun _ _ => rfl).trans (failed_onWorld _ ctx)

section

variable (intent : Intent) (block : Block)

/-- After the loop no index is added. -/
theorem failed_afterLoop (start : BlockContext σ) : (final ((do
      rt.applyTransactions intent 0 block.transactions
      let charged ← onWorld (rt.afterTransactions block)
      onWorld (rt.generateBlockReceipt block charged)) start)).failedTransactionIndices =
      (final (rt.applyTransactions intent 0 block.transactions start)).failedTransactionIndices :=
  final_bind failedTransactionIndices fun _ ctx =>
    (final_bind _ fun _ ctx => failed_onWorld _ ctx).trans (failed_onWorld _ ctx)

theorem failed_finishBlock (start : BlockContext σ) :
    (final (rt.finishBlock intent block start)).failedTransactionIndices =
      (final (rt.applyTransactions intent 0 block.transactions start)).failedTransactionIndices := by
  rw [finishBlock, final_within]
  refine (final_tryCatch failedTransactionIndices fun e ctx =>
    failed_rethrowWithBlockReceipt block e ctx).trans ?_
  rw [final_within]
  exact failed_afterLoop intent block start

theorem failed_blockBody (ctx : BlockContext σ) :
    ∃ noted, noted.Sublist (range' 0 block.transactions.length) ∧
      (final (rt.blockBody intent block ctx)).failedTransactionIndices = ctx.failedTransactionIndices ++ noted := by
  have kept := failed_onWorld (rt.beforeTransactions block) ctx
  unfold blockBody
  cases outcome : onWorld (rt.beforeTransactions block) ctx with
  | ok _ start =>
    rw [outcome, final] at kept
    rw [bind_of_ok outcome, failed_afterLoop, ← kept]
    exact rt.failed_applyTransactions intent 0 block.transactions start
  | error e start =>
    rw [outcome] at kept
    rw [bind_of_error outcome]
    exact ⟨[], nil_sublist _, kept.trans (append_nil _).symm⟩

/-- The thunk `apply_block` notes indices of the block's transactions, in ascending order. -/
theorem failed_applyBlock (ctx : BlockContext σ) :
    ∃ noted, noted.Sublist (range' 0 block.transactions.length) ∧
      (final (rt.applyBlock intent block ctx)).failedTransactionIndices =
        ctx.failedTransactionIndices ++ noted := by
  rw [applyBlock, bind_of_ok (by rfl), final_tryCatch failedTransactionIndices fun e ctx =>
    failed_rethrowWithBlockReceipt block e ctx]
  rcases admitBlock_cases intent (ctx.setWorld { ctx.world with receipt := .block {} }) with
    ⟨e, refuses⟩ | ⟨admits, -⟩
  · rw [bind_of_error refuses]
    exact ⟨[], nil_sublist _, (append_nil _).symm⟩
  · rw [bind_of_ok admits, bind_of_ok (by rfl), final_within]
    exact failed_blockBody intent block _

end

/-- The controller returns a receipt when the thunk does and a proposal has noted no index. -/
theorem controllerApplyBlock_eq_ok_iff {proposeBlock : Bool} {receipt : BlockReceipt} {ctx' : BlockContext σ} :
    rt.controllerApplyBlock proposeBlock block ctx = .ok receipt ctx' ↔
      rt.callApplyBlock (blockIntent proposeBlock) block ctx = .ok () ctx' ∧
        (proposeBlock → ctx'.failedTransactionIndices = []) ∧ ctx'.world.receipt = .block receipt := by
  have passes (ended : BlockContext σ) :
      (!(proposeBlock && ended.failedTransactionIndices.length != 0)) = true ↔
        (proposeBlock → ended.failedTransactionIndices = []) := by
    cases proposeBlock <;> simp
  constructor
  · intro ok
    obtain ⟨_, ended, called, ok⟩ := bind_eq_ok ok
    obtain ⟨_, _, got, ok⟩ := bind_eq_ok ok
    cases got
    obtain ⟨_, _, passed, ok⟩ := bind_eq_ok ok
    obtain ⟨noted, rfl⟩ := require_eq_ok_iff.mp passed
    cases stored : ended.world.receipt with
    | none | transaction => simp only [stored] at ok; contradiction
    | block receipt =>
      simp only [stored] at ok
      cases ok
      exact ⟨called, (passes _).mp noted, stored⟩
  · rintro ⟨called, noted, stored⟩
    refine (bind_of_ok called).trans ((bind_of_ok rfl).trans ?_)
    refine (bind_of_ok (require_eq_ok_iff.mpr ⟨(passes ctx').mpr noted, rfl⟩)).trans ?_
    simp only [stored]
    rfl

end Block

/-- A proposal that is accepted without failed transactions is applied with the same state delta and the
same transaction receipts exactly when no transaction's operations fail. -/
theorem proposal_applies_iff (rt : Runtime σ) (block : Block) (heap : Heap) (blockNode : ℕ) (rest : σ)
    {receipt : BlockReceipt} {ctx : BlockContext σ}
    (proposed : rt.controllerApplyBlock true block (.ofBlockNode heap blockNode rest) = .ok receipt ctx) :
    (∃ receipt' ctx', rt.controllerApplyBlock false block (.ofBlockNode heap blockNode rest) =
        .ok receipt' ctx' ∧ ctx'.world.heap = ctx.world.heap ∧
        receipt'.stateDeltaEntries = receipt.stateDeltaEntries ∧
        receipt'.transactionReceipts = receipt.transactionReceipts) ↔
      rt.OperationsNeverFail block (.ofBlockNode heap blockNode rest) := by
  constructor
  · rintro ⟨receipt', ctx', applied, -⟩ before trx after start reached split reaches ran fails
    obtain ⟨called, -⟩ := controllerApplyBlock_eq_ok_iff.mp applied
    rw [callApplyBlock_of_reached reaches] at called
    -- The loop throws at the first transaction whose operations fail.
    have err : Throws (·.isFailure) (rt.applyTransactions .blockApplication 0 (before ++ trx :: after)) start :=
      applyTransactions_throws ran fun j => (applyTransactionAt_throws j fails).bind
    exact (finishBlock_throws (split ▸ err)).not_ok called
  · intro clean
    obtain ⟨called, noted, stored⟩ := controllerApplyBlock_eq_ok_iff.mp proposed
    have agree : rt.callApplyBlock .blockProposal block (.ofBlockNode heap blockNode rest) =
        rt.callApplyBlock .blockApplication block (.ofBlockNode heap blockNode rest) := by
      refine callApplyBlock_agree fun start reaches => applyTransactions_agree ?_ ?_
      · exact fun before trx after reached split ran => clean before trx after start reached split reaches ran
      · have finished : rt.finishBlock .blockProposal block start = .ok () ctx :=
          (callApplyBlock_of_reached reaches true).symm.trans called
        rw [← failed_finishBlock, finished]
        exact noted rfl
    exact ⟨receipt, ctx, controllerApplyBlock_eq_ok_iff.mpr ⟨agree ▸ called, Bool.false_ne_true.elim, stored⟩,
      rfl, rfl, rfl⟩

section Sample

/-- A runtime whose system calls accept everything, except that only the account `[1]` authorizes an upload. -/
def uploadRuntime : Runtime Unit where
  crypto := ⟨fun _ => [], fun _ => []⟩
  codec := .transparent
  encoding :=
    { blockHeader := fun _ => [1]
      block := fun _ => [1, 2, 3]
      transactionHeader := fun _ => [2]
      transaction := fun _ => [2, 3]
      operation := fun _ => [3]
      parseMultihash := fun bytes => .ok (0, bytes)
      parseVarint := fun _ => .ok 0
      toBase58 := id
      toHex := id
      validateUtf := fun _ => true
      metadata := { system := true } }
  calls :=
    { enter := fun _ => pure true
      getResourceLimits := pure { networkBandwidthLimit := 10 }
      hash := fun _ bytes => pure bytes
      verifyMerkleRoot := fun _ _ => pure true
      processBlockSignature := fun _ _ _ => pure true
      preBlockCallback := pure ()
      postBlockCallback := pure ()
      consumeAccountRc := fun _ _ => pure true
      consumeBlockResources := fun _ _ _ => pure true
      getAccountRc := fun _ => pure 0
      getObject := fun _ _ => pure (some [])
      checkAuthority := fun _ _ => pure true
      verifyAccountNonce := fun _ _ => pure true
      getAccountNonce := fun _ => pure []
      setAccountNonce := fun _ _ => pure ()
      preTransactionCallback := pure ()
      postTransactionCallback := pure ()
      applyUploadContractOperation := fun o => require (o.contractId == [1])
        ⟨.failure .authorizationFailure, text "account has not authorized action", []⟩
      applyCallContractOperation := fun _ => pure ()
      applySetSystemCallOperation := fun _ => pure ()
      applySetSystemContractOperation := fun _ => pure () }

/-- A transaction that uploads a contract. -/
def uploadTransaction (contractId : Bytes) : Transaction where
  id := [2]
  operations := [.uploadContract { contractId }]

def uploadBlock (contractId : Bytes) : Block where
  id := [1]
  transactions := [uploadTransaction contractId]

/-- A root that holds the block hash code, and the block's node above it. -/
def blockNodeHeap : Heap :=
  let root : Heap := Heap.empty.push { backend := some {} }
  (Heap.put root 0 (KeyCodec.transparent.serialize ⟨{ system := true }, []⟩) []).makeChild 0 [] {}

abbrev uploadContext : BlockContext Unit := .ofBlockNode blockNodeHeap 1 ()

/-- The authorized upload does not fail. -/
theorem operationsNeverFail_upload : uploadRuntime.OperationsNeverFail (uploadBlock [1]) uploadContext := by
  intro before trx after start reached split reaches ran
  have clean : ¬ uploadRuntime.OperationsFail (uploadTransaction [1])
      (final (uploadRuntime.reachTransactions (uploadBlock [1]) uploadContext)).world := by
    decide +kernel
  obtain ⟨rfl, tail⟩ : before = [] ∧ [uploadTransaction [1]] = trx :: after := by
    cases before with
    | nil => exact ⟨rfl, split⟩
    | cons first before => exact absurd (cons.inj split).2.symm (by simp)
  obtain ⟨rfl, -⟩ := cons.inj tail
  cases ran
  rw [reaches] at clean
  exact clean

/-- With the authorization the proposal is accepted and the block applies. -/
theorem proposal_applies_of_authorized :
    ∃ receipt ctx, uploadRuntime.controllerApplyBlock true (uploadBlock [1]) uploadContext = .ok receipt ctx ∧
      ∃ receipt' ctx', uploadRuntime.controllerApplyBlock false (uploadBlock [1]) uploadContext = .ok receipt' ctx' ∧
        ctx'.world.heap = ctx.world.heap ∧ receipt'.stateDeltaEntries = receipt.stateDeltaEntries ∧
        receipt'.transactionReceipts = receipt.transactionReceipts := by
  have ok : ¬ Throws (fun _ => True) (uploadRuntime.controllerApplyBlock true (uploadBlock [1])) uploadContext := by
    decide +kernel
  obtain ⟨receipt, ctx, proposed⟩ := exists_ok_of_not_throws ok
  exact ⟨receipt, ctx, proposed, (proposal_applies_iff _ _ _ _ _ proposed).mpr operationsNeverFail_upload⟩

/-- Without it the upload fails. The proposal is accepted all the same, while the application of the block throws. -/
theorem proposal_not_applied :
    (∃ receipt ctx, uploadRuntime.controllerApplyBlock true (uploadBlock [2]) uploadContext = .ok receipt ctx ∧
        ctx.failedTransactionIndices = []) ∧
      Throws (·.isFailure) (uploadRuntime.controllerApplyBlock false (uploadBlock [2])) uploadContext := by
  have ok : ¬ Throws (fun _ => True) (uploadRuntime.controllerApplyBlock true (uploadBlock [2])) uploadContext := by
    decide +kernel
  obtain ⟨receipt, ctx, proposed⟩ := exists_ok_of_not_throws ok
  exact ⟨⟨receipt, ctx, proposed, (controllerApplyBlock_eq_ok_iff.mp proposed).2.1 rfl⟩, by decide +kernel⟩

end Sample

end Runtime

end Teleno.Chain
