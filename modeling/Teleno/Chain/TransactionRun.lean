import Teleno.Chain.CallSequences
import Teleno.Chain.Proposal

/-! # How a transaction ends

`apply_transaction` checks a transaction under a session of its payer, runs its operations on a node of its
own, and charges the payer on the block's node. `TransactionRun` lists how this can end, in terms of the worlds
between the phases. The local variables of the thunk no longer appear.
-/

namespace Teleno.Chain

open Library StateDb Exec ChainException

variable {σ : Type}

namespace World

/-- The sessions around a transaction that starts in this world. -/
def outerSessions (w : World σ) : List PayerSession := w.session.toList ++ w.detachedSessions

def beginTransaction (w : World σ) (trx : Transaction) : World σ :=
  { w with
    transaction := some trx
    session := some (.start trx.header.rcLimit)
    detachedSessions := w.outerSessions }

/-- The transaction's node becomes the current one. -/
def onTransactionNode (w : World σ) : World σ :=
  setStateNode { w with heap := w.heap.makeChild w.stateNode [] {} } w.heap.size (w.heap.cell w.stateNode).parent

/-- The session of a transaction inside these other ones. -/
def payerSession (w : World σ) (outer : List PayerSession) : Option PayerSession :=
  w.session.or (if outer.length < w.detachedSessions.length then w.detachedSessions.head? else none)

def endSession (w : World σ) (outer : List PayerSession) : World σ :=
  { w with session := none, detachedSessions := outer }

def endTransaction (w : World σ) (outer : List PayerSession) : World σ :=
  { w.endSession outer with transaction := none }

def setReceipt (w : World σ) (receipt : Receipt) : World σ := { w with receipt := receipt }

end World

/-- While blocks are applied, the receipt of a block stays one. -/
def Receipt.Keeps (intent : Intent) (before after : Receipt) : Prop :=
  intent ≠ .transactionApplication → ∀ stored, before = .block stored → ∃ stored', after = .block stored'

theorem Receipt.Keeps.refl (intent : Intent) (receipt : Receipt) : receipt.Keeps intent receipt :=
  fun _ stored same => ⟨stored, same⟩

namespace Runtime

variable (rt : Runtime σ)

/-- Everything before the operations; returns the payer's RC. -/
def checks (trx : Transaction) : WorldM σ UInt64 := do
  let payerRc ← rt.calls.getAccountRc trx.header.payer
  rt.verifyTransaction trx payerRc
  pure payerRc

variable {rt} in
theorem moves_checks {rel : World σ → World σ → Prop} [IsPreorder (World σ) rel] (calls : rt.calls.Move rel)
    (lenient : Lenient rel) (setAccountNonce : ∀ account nonce, Moves rel (rt.calls.setAccountNonce account nonce))
    (trx : Transaction) : Moves rel (rt.checks trx) := by
  refine .bind (calls.getAccountRc _) fun payerRc => ?_
  exact .bind (moves_verifyTransaction calls lenient setAccountNonce trx payerRc) fun _ => .pure _

/-- The operations, on a node made from the block's node, and the commit of that node. -/
def operate (trx : Transaction) (blockNode trxNode : ℕ) : WorldM σ Unit := do
  rt.operations trx
  World.commitAnonymousNode blockNode trxNode

/-- The commit only changes the heap. -/
theorem final_operate (trx : Transaction) (blockNode trxNode : ℕ) (w : World σ) :
    ∃ heap, final (rt.operate trx blockNode trxNode w) = { final (rt.operations trx w) with heap := heap } := by
  cases ran : rt.operations trx w with
  | error e w' =>
    rw [operate, bind_of_error ran]
    exact ⟨w'.heap, rfl⟩
  | ok _ w' =>
    rw [operate, bind_of_ok ran, World.commitAnonymousNode, get_bind]
    cases (w'.heap.cell blockNode).finalized with
    | true => exact ⟨w'.heap, rfl⟩
    | false => exact ⟨_, rfl⟩

/-- The log entry of a reverted transaction. -/
def revertedMessage (e : ChainException) : Bytes := text "transaction reverted: " ++ e.message

/-- The operations phase lets the transaction be settled: it was committed, or it was reverted and the
reversion was logged. -/
inductive Finished (trx : Transaction) (w : World σ) : Option ChainException → World σ → Prop
  | committed {w' : World σ} (ran : rt.operate trx w.stateNode w.heap.size w.onTransactionNode = .ok () w') :
      Finished trx w none w'
  | reverted {e : ChainException} {w' : World σ}
      (ran : rt.operate trx w.stateNode w.heap.size w.onTransactionNode = .error e w') (reversion : e.isReversion)
      (logged : rt.encoding.validateUtf (revertedMessage e) = true) :
      Finished trx w (some e) (final (World.pushLog (revertedMessage e) w'))

/-- The session whose use is charged. -/
def chargedSession (trx : Transaction) (outer : List PayerSession) (w : World σ) : PayerSession :=
  (w.payerSession outer).getD (.start trx.header.rcLimit)

/-- The world in which the payer is charged. -/
def chargeWorld (outer : List PayerSession) (blockNode : ℕ) (w : World σ) : World σ :=
  (w.setStateNode blockNode).endSession outer

/-- The receipt of a transaction that started with a meter, finished its operations in one world and was charged
in another. -/
def settledReceipt (trx : Transaction) (payerRc : UInt64) (reverted : Bool) (outer : List PayerSession)
    (start : ResourceMeter) (w charged : World σ) : TransactionReceipt where
  id := trx.id
  payer := trx.header.payer
  maxPayerRc := payerRc
  rcLimit := trx.header.rcLimit
  rcUsed := (chargedSession trx outer w).usedRc
  diskStorageUsed := w.meter.diskStorageUsed - start.diskStorageUsed
  networkBandwidthUsed := w.meter.networkBandwidthUsed - start.networkBandwidthUsed
  computeBandwidthUsed := w.meter.computeBandwidthUsed - start.computeBandwidthUsed
  reverted := reverted
  events := if reverted then [] else (chargedSession trx outer w).events
  logs := (chargedSession trx outer w).logs
  stateDeltaEntries := (charged.heap.cell charged.stateNode).getDeltaEntries rt.codec

/-- The reversion of a settled transaction is thrown again. -/
def rethrow (reverted : Option ChainException) (w : World σ) : EStateM.Result ChainException (World σ) Unit :=
  reverted.elim (.ok () w) (.error · w)

theorem final_rethrow (reverted : Option ChainException) (w : World σ) : final (rethrow reverted w) = w := by
  cases reverted <;> rfl

/-- How a transaction whose operations are over ends, by the outcome of the charge. -/
inductive Settlement (intent : Intent) (trx : Transaction) (rc : UInt64) (reverted : Option ChainException)
    (outer : List PayerSession) (start : ResourceMeter) (w : World σ) :
    EStateM.Result ChainException (World σ) Bool → EStateM.Result ChainException (World σ) Unit → Prop
  | unpaid {e : ChainException} {charged w' : World σ} (reversion : e.isReversion)
      (stored : storeReceipt intent (rt.settledReceipt trx rc reverted.isSome outer start w charged)
        (charged.endTransaction outer) = .ok () w') :
      Settlement intent trx rc reverted outer start w (.error e charged) (.error e w')
  | uncharged {e e' : ChainException} {charged : World σ} {receipt : Receipt} (fatal : ¬ e'.isReversion)
      (kept : charged.receipt.Keeps intent receipt) :
      Settlement intent trx rc reverted outer start w (.error e charged)
        (.error e' ((charged.endTransaction outer).setReceipt receipt))
  | unsettled {paid : Bool} {e : ChainException} {charged : World σ} {receipt : Receipt} (fatal : ¬ e.isReversion)
      (kept : charged.receipt.Keeps intent receipt) :
      Settlement intent trx rc reverted outer start w (.ok paid charged)
        (.error e ((charged.endTransaction outer).setReceipt receipt))
  | settled {charged w' : World σ}
      (stored : storeReceipt intent (rt.settledReceipt trx rc reverted.isSome outer start w charged) charged =
        .ok () w') :
      Settlement intent trx rc reverted outer start w (.ok true charged) (rethrow reverted (w'.endTransaction outer))

/-- How `apply_transaction` ends. Except when the proposal of a block swallows a failure, there is at most a
change of the receipt after the last of the worlds. -/
inductive TransactionRun (intent : Intent) (trx : Transaction) (w : World σ) :
    EStateM.Result ChainException (World σ) Unit → Prop
  | refused {e : ChainException} {receipt : Receipt} (denied : w.getCallerPrivilege = .kernelMode → intent = .readOnly)
      (kept : w.receipt.Keeps intent receipt) :
      TransactionRun intent trx w (.error e (w.setReceipt receipt))
  | rejected {e e' : ChainException} {w₁ : World σ} {receipt : Receipt}
      (admitted : w.getCallerPrivilege = .kernelMode)
      (checked : rt.checks trx (w.beginTransaction trx) = .error e w₁) (fatal : ¬ e'.isReversion)
      (kept : w₁.receipt.Keeps intent receipt) :
      TransactionRun intent trx w (.error e' ((w₁.endTransaction w.outerSessions).setReceipt receipt))
  | broken {rc : UInt64} {e e' : ChainException} {w₁ w₂ : World σ} {receipt : Receipt}
      (admitted : w.getCallerPrivilege = .kernelMode)
      (checked : rt.checks trx (w.beginTransaction trx) = .ok rc w₁)
      (ran : rt.operate trx w₁.stateNode w₁.heap.size w₁.onTransactionNode = .error e w₂) (kind : ¬ e.isReversion)
      (unhandled : e.isFailure → intent ≠ .blockProposal)
      (thrown : e' = e ∨ ¬ e'.isReversion ∧ ∀ receipt, w₂.receipt ≠ .block receipt)
      (kept : w₂.receipt.Keeps intent receipt) :
      TransactionRun intent trx w (.error e' ((w₂.endTransaction w.outerSessions).setReceipt receipt))
  | abandoned {rc : UInt64} {e : ChainException} {w₁ w₂ : World σ} (admitted : w.getCallerPrivilege = .kernelMode)
      (checked : rt.checks trx (w.beginTransaction trx) = .ok rc w₁)
      (ran : rt.operate trx w₁.stateNode w₁.heap.size w₁.onTransactionNode = .error e w₂) (failure : e.isFailure)
      (proposal : intent = .blockProposal) :
      TransactionRun intent trx w (.ok () ((w₂.setStateNode w₁.stateNode).endTransaction w.outerSessions))
  | unlogged {rc : UInt64} {e e' : ChainException} {w₁ w₂ : World σ} {receipt : Receipt}
      (admitted : w.getCallerPrivilege = .kernelMode)
      (checked : rt.checks trx (w.beginTransaction trx) = .ok rc w₁)
      (ran : rt.operate trx w₁.stateNode w₁.heap.size w₁.onTransactionNode = .error e w₂) (reversion : e.isReversion)
      (invalid : rt.encoding.validateUtf (revertedMessage e) = false) (kept : w₂.receipt.Keeps intent receipt) :
      TransactionRun intent trx w (.error e' ((w₂.endTransaction w.outerSessions).setReceipt receipt))
  | charged {rc : UInt64} {reverted : Option ChainException} {w₁ w₂ : World σ}
      {result : EStateM.Result ChainException (World σ) Unit} (admitted : w.getCallerPrivilege = .kernelMode)
      (checked : rt.checks trx (w.beginTransaction trx) = .ok rc w₁) (finished : rt.Finished trx w₁ reverted w₂)
      (settles : rt.Settlement intent trx rc reverted w.outerSessions w.meter w₂
        (rt.calls.consumeAccountRc trx.header.payer (chargedSession trx w.outerSessions w₂).usedRc
          (chargeWorld w.outerSessions w₁.stateNode w₂)) result) :
      TransactionRun intent trx w result

section Frames

variable {rt} {intent : Intent} {trx : Transaction}

open TransactionFrame (inWorld)

theorem final_storeReceipt (intent : Intent) (receipt : TransactionReceipt) (w : World σ) :
    ∃ receipt', final (storeReceipt intent receipt w) = w.setReceipt receipt' ∧ w.receipt.Keeps intent receipt' := by
  have block : ∃ receipt', final (addTransactionReceipt receipt w) = w.setReceipt receipt' ∧
      w.receipt.Keeps intent receipt' := by
    rw [addTransactionReceipt, get_bind]
    cases stored : w.receipt with
    | none | transaction => exact ⟨w.receipt, rfl, stored ▸ .refl intent _⟩
    | block receipt => exact ⟨_, rfl, fun _ _ _ => ⟨_, rfl⟩⟩
  cases intent with
  | blockApplication | blockProposal => exact block
  | transactionApplication => exact ⟨_, rfl, fun other => absurd rfl other⟩
  | readOnly => exact ⟨w.receipt, rfl, .refl _ _⟩

variable {rc : UInt64} {outer : List PayerSession} {w w₁ : World σ} {frame : TransactionFrame σ} {e : ChainException}

/-- After the charge only the receipt changes. -/
theorem Settlement.final_eq {reverted : Option ChainException} {start : ResourceMeter}
    {outcome : EStateM.Result ChainException (World σ) Bool} {result : EStateM.Result ChainException (World σ) Unit}
    (settles : rt.Settlement intent trx rc reverted outer start w outcome result) :
    ∃ receipt, final result = ((final outcome).endTransaction outer).setReceipt receipt ∧
      (final outcome).receipt.Keeps intent receipt := by
  cases settles with
  | unpaid _ stored =>
    obtain ⟨receipt, stores, kept⟩ := final_storeReceipt intent _ _
    rw [stored] at stores
    exact ⟨receipt, stores, kept⟩
  | uncharged _ kept | unsettled _ kept => exact ⟨_, rfl, kept⟩
  | settled stored =>
    obtain ⟨receipt, stores, kept⟩ := final_storeReceipt intent _ _
    rw [stored] at stores
    refine ⟨receipt, ?_, kept⟩
    rw [final_rethrow]
    exact congrArg (World.endTransaction · outer) stores

/-- Recording a receipt changes the receipt of the world and nothing else in it. -/
theorem world_recordReceipt (rt : Runtime σ) (intent : Intent) (trx : Transaction) (frame : TransactionFrame σ) :
    ∃ receipt, (final (rt.recordReceipt intent trx frame)).world = frame.world.setReceipt receipt ∧
      frame.world.receipt.Keeps intent receipt := by
  obtain ⟨receipt, stores, kept⟩ := final_storeReceipt intent (rt.generateTransactionReceipt trx frame) frame.world
  refine ⟨receipt, ?_, kept⟩
  rw [recordReceipt, modify_bind, get_bind, final_within]
  exact stores

theorem recordReceipt_eq (rt : Runtime σ) (intent : Intent) (trx : Transaction) (frame : TransactionFrame σ) :
    rt.recordReceipt intent trx frame =
      inWorld (storeReceipt intent (rt.generateTransactionReceipt trx frame))
        { frame with receipt := rt.generateTransactionReceipt trx frame } := rfl

theorem inWorld_of_ok {α : Type} {program : WorldM σ α} {a : α}
    (ok : program frame.world = .ok a w) : inWorld program frame = .ok a (frame.setWorld w) :=
  within_of_ok ok

/-- A receipt can be stored unless there is no block receipt to add it to. -/
theorem storeReceipt_eq_error {receipt : TransactionReceipt} {w' : World σ}
    (err : storeReceipt intent receipt w = .error e w') (stored : BlockReceipt) : w.receipt ≠ .block stored := by
  have expected : addTransactionReceipt receipt w = .error e w' → w.receipt ≠ .block stored := by
    intro err same
    rw [addTransactionReceipt, get_bind, same] at err
    contradiction
  cases intent with
  | blockApplication | blockProposal => exact expected err
  | transactionApplication | readOnly => contradiction

/-- What leaves the body is thrown again, with a receipt if it is a reversion, unless the receipt cannot be
stored. -/
def Rethrown (rt : Runtime σ) (intent : Intent) (trx : Transaction) (frame : TransactionFrame σ) (e e' : ChainException)
    (w : World σ) : Prop :=
  e' = e ∧ (e.isReversion →
    storeReceipt intent (rt.generateTransactionReceipt trx frame) frame.world = .ok () w) ∨
  ¬ e'.isReversion ∧ ∀ stored, frame.world.receipt ≠ .block stored

theorem rethrowWithReceipt_spec (rt : Runtime σ) (intent : Intent) (trx : Transaction) (e : ChainException)
    (frame : TransactionFrame σ) :
    ∃ e' frame' receipt, rt.rethrowWithReceipt intent trx e frame = .error e' frame' ∧
      frame'.world = frame.world.setReceipt receipt ∧ frame.world.receipt.Keeps intent receipt ∧
      rt.Rethrown intent trx frame e e' frame'.world := by
  rw [rethrowWithReceipt]
  split_ifs with foreign
  · obtain ⟨receipt, same, kept⟩ := world_recordReceipt rt intent trx frame
    cases stored : storeReceipt intent (rt.generateTransactionReceipt trx frame) frame.world with
    | ok _ w' =>
      have recorded := (recordReceipt_eq rt intent trx frame).trans (inWorld_of_ok stored)
      rw [recorded] at same
      exact ⟨e, _, receipt, by rw [bind_of_ok recorded]; rfl, same, kept, .inl ⟨rfl, fun _ => stored⟩⟩
    | error e' w' =>
      have recorded := (recordReceipt_eq rt intent trx frame).trans (within_of_error stored)
      rw [recorded] at same
      refine ⟨e', _, receipt, bind_of_error recorded, same, kept, .inr ⟨?_, storeReceipt_eq_error stored⟩⟩
      exact not_isReversion_of_isFailure (recordReceipt_throws recorded)
  · refine ⟨e, frame, frame.world.receipt, rfl, rfl, .refl _ _, .inl ⟨rfl, fun reversion => ?_⟩⟩
    obtain ⟨kind, type⟩ := isReversion_iff.mp reversion
    rw [isKoinos, type] at foreign
    contradiction

/-- The body throws. -/
theorem applyTransaction_of_error (err : rt.transactionBody intent trx { world := w } = .error e frame) :
    ∃ e' receipt, rt.applyTransaction intent trx w = .error e' (frame.world.setReceipt receipt) ∧
      frame.world.receipt.Keeps intent receipt ∧
      rt.Rethrown intent trx frame e e' (frame.world.setReceipt receipt) := by
  obtain ⟨e', frame', receipt, rethrows, world, kept, same⟩ := rethrowWithReceipt_spec rt intent trx e frame
  rw [world] at same
  refine ⟨e', receipt, ?_, kept, same⟩
  unfold applyTransaction
  refine Eq.trans (within_of_error (e := e') (t := frame') ?_) ?_
  · exact bind_of_error ((tryCatch_of_error err).trans rethrows)
  · rw [world]

/-- The body returns. -/
theorem applyTransaction_of_ok (ok : rt.transactionBody intent trx { world := w } = .ok () frame) :
    rt.applyTransaction intent trx w = rethrow frame.revertedException frame.world := by
  unfold applyTransaction
  cases reverted : frame.revertedException with
  | none =>
    refine within_of_ok ((bind_of_ok (tryCatch_of_ok ok)).trans ?_)
    rw [get_bind, reverted]
    rfl
  | some e =>
    refine within_of_error ((bind_of_ok (tryCatch_of_ok ok)).trans ?_)
    rw [get_bind, reverted]
    rfl

/-- The locals while a transaction is applied. -/
def openFrame (w : World σ) (rc : UInt64) (outer : List PayerSession) : TransactionFrame σ :=
  { world := w, outerSessions := outer, payerRc := rc }

section

variable {α : Type} {program : WorldM σ α} (rc : UInt64) (outer : List PayerSession)

theorem openFrame_of_ok {a : α} (ok : program w = .ok a w₁) :
    inWorld program (openFrame w rc outer) = .ok a (openFrame w₁ rc outer) :=
  within_of_ok ok

theorem openFrame_of_error (err : program w = .error e w₁) :
    inWorld program (openFrame w rc outer) = .error e (openFrame w₁ rc outer) :=
  within_of_error err

end

/-- What the transaction remembers: the usage at its start and the nodes, in the world after the checks. -/
def openedIn (start : ResourceMeter) (w : World σ) : OpenedTransaction where
  startDiskUsed := start.diskStorageUsed
  startNetworkUsed := start.networkBandwidthUsed
  startComputeUsed := start.computeBandwidthUsed
  blockNode := w.stateNode
  trxNode := w.heap.size

/-- No reversion leaves the checks. -/
theorem checkTransaction_of_throws {frame' : TransactionFrame σ} (err : (do
      let payerRc ← inWorld (rt.calls.getAccountRc trx.header.payer)
      modify fun frame => { frame with payerRc := payerRc }
      inWorld (rt.verifyTransaction trx payerRc) : TransactionM σ Unit) frame = .error e frame') :
    ∃ e', rt.checkTransaction trx frame = .error e' frame' ∧ ¬ e'.isReversion := by
  rw [checkTransaction, tryCatch_of_error err]
  cases type : e.type with
  | reversion kind => exact ⟨_, rfl, Bool.false_ne_true⟩
  | failure | success | otherKoinos | foreign =>
    refine ⟨e, rfl, ?_⟩
    rw [isReversion, type]
    exact Bool.false_ne_true

/-- The checks fail. -/
theorem openTransaction_of_error (checked : rt.checks trx (w.beginTransaction trx) = .error e w₁) :
    ∃ e' rc, rt.openTransaction trx { world := w } = .error e' (openFrame w₁ rc w.outerSessions) ∧
      ¬ e'.isReversion := by
  have fails : ∃ e' rc, rt.checkTransaction trx (openFrame (w.beginTransaction trx) 0 w.outerSessions) =
      .error e' (openFrame w₁ rc w.outerSessions) ∧ ¬ e'.isReversion := by
    rcases bind_eq_error checked with err | ⟨rc, w', reads, verified⟩
    · obtain ⟨e', err', fatal⟩ := checkTransaction_of_throws (bind_of_error (openFrame_of_error 0 w.outerSessions err))
      exact ⟨e', 0, err', fatal⟩
    · rcases bind_eq_error verified with err | ⟨_, _, _, returned⟩
      · obtain ⟨e', err', fatal⟩ := checkTransaction_of_throws
          ((bind_of_ok (openFrame_of_ok 0 w.outerSessions reads)).trans (openFrame_of_error rc w.outerSessions err))
        exact ⟨e', rc, err', fatal⟩
      · contradiction
  obtain ⟨e', rc, err, fatal⟩ := fails
  refine ⟨e', rc, ?_, fatal⟩
  change (rt.checkTransaction trx >>= _) (openFrame (w.beginTransaction trx) 0 w.outerSessions) = _
  exact bind_of_error err

/-- The checks succeed. -/
theorem openTransaction_of_ok (checked : rt.checks trx (w.beginTransaction trx) = .ok rc w₁) :
    rt.openTransaction trx { world := w } =
      .ok (openedIn w.meter w₁) (openFrame w₁.onTransactionNode rc w.outerSessions) := by
  obtain ⟨rc', w', reads, verified⟩ := bind_eq_ok checked
  obtain ⟨_, w'', verifies, returned⟩ := bind_eq_ok verified
  cases returned
  have passes : rt.checkTransaction trx (openFrame (w.beginTransaction trx) 0 w.outerSessions) =
      .ok () (openFrame w₁ rc w.outerSessions) :=
    tryCatch_of_ok ((bind_of_ok (openFrame_of_ok _ _ reads)).trans (openFrame_of_ok _ _ verifies))
  rw [openTransaction]
  exact bind_of_ok passes

/-- What is left of the locals when the operations phase was settled. -/
def finishedFrame (w : World σ) (rc : UInt64) (outer : List PayerSession) (reverted : Option ChainException) :
    TransactionFrame σ :=
  { openFrame w rc outer with receipt := { reverted := reverted.isSome }, revertedException := reverted }

/-- The locals while a reversion is logged. -/
def revertedFrame (w : World σ) (rc : UInt64) (outer : List PayerSession) : TransactionFrame σ :=
  { openFrame w rc outer with receipt := { reverted := true } }

/-- How the operations phase ends, in terms of `operate`. -/
theorem applyOperations_cases (rt : Runtime σ) (intent : Intent) (trx : Transaction) (start : ResourceMeter)
    (w : World σ) (rc : UInt64) (outer : List PayerSession) :
    (∃ reverted w', rt.Finished trx w reverted w' ∧
      rt.applyOperations intent trx (openedIn start w) (openFrame w.onTransactionNode rc outer) =
        .ok .settle (finishedFrame w' rc outer reverted)) ∨
    ∃ e w', rt.operate trx w.stateNode w.heap.size w.onTransactionNode = .error e w' ∧
      ((e.isFailure ∧ intent = .blockProposal ∧
        rt.applyOperations intent trx (openedIn start w) (openFrame w.onTransactionNode rc outer) =
          .ok .abandon (openFrame (w'.setStateNode w.stateNode) rc outer)) ∨
      ∃ e' frame,
        rt.applyOperations intent trx (openedIn start w) (openFrame w.onTransactionNode rc outer) = .error e' frame ∧
        frame.world = w' ∧ frame.outerSessions = outer ∧
        (e' = e ∧ ¬ e.isReversion ∧ (e.isFailure → intent ≠ .blockProposal) ∨
          e.isReversion ∧ rt.encoding.validateUtf (revertedMessage e) = false)) := by
  have same : rt.runOperations trx (openedIn start w) = rt.operate trx w.stateNode w.heap.size := runOperations_eq trx _
  unfold applyOperations
  rw [same]
  cases ran : rt.operate trx w.stateNode w.heap.size w.onTransactionNode with
  | ok u w' =>
    refine .inl ⟨none, w', .committed ran, ?_⟩
    exact tryCatch_of_ok (bind_of_ok (openFrame_of_ok rc outer ran))
  | error e w' =>
    rw [tryCatch_of_error (bind_of_error (openFrame_of_error rc outer ran))]
    cases type : e.type with
    | reversion kind =>
      have reversion : e.isReversion := isReversion_iff.mpr ⟨kind, type⟩
      cases valid : rt.encoding.validateUtf (revertedMessage e) with
      | true =>
        refine .inl ⟨some e, _, .reverted ran reversion valid, ?_⟩
        have logs : rt.log (revertedMessage e) w' = .ok () (final (World.pushLog (revertedMessage e) w')) := by
          rw [log, valid]
          rfl
        have logged : inWorld (rt.log (revertedMessage e)) (revertedFrame w' rc outer) =
            .ok () (revertedFrame (final (World.pushLog (revertedMessage e) w')) rc outer) := inWorld_of_ok logs
        exact bind_of_ok logged
      | false =>
        have logs : ∃ e', rt.log (revertedMessage e) w' = .error e' w' := by
          rw [log, valid]
          exact ⟨_, rfl⟩
        obtain ⟨e', logs⟩ := logs
        have logged : inWorld (rt.log (revertedMessage e)) (revertedFrame w' rc outer) =
            .error e' (revertedFrame w' rc outer) := within_of_error logs
        refine .inr ⟨e, w', rfl, .inr ⟨e', revertedFrame w' rc outer, ?_, rfl, rfl, .inr ⟨reversion, valid⟩⟩⟩
        change (inWorld (rt.log (revertedMessage e)) >>= _) (revertedFrame w' rc outer) = _
        exact bind_of_error logged
    | failure kind =>
      have failure : e.isFailure := isFailure_iff.mpr ⟨kind, type⟩
      by_cases proposal : intent = .blockProposal
      · refine .inr ⟨e, w', rfl, .inl ⟨failure, proposal, ?_⟩⟩
        dsimp only
        rw [if_neg (not_not.mpr proposal)]
        rfl
      · refine .inr ⟨e, w', rfl, .inr ⟨e, openFrame w' rc outer, ?_, rfl, rfl, .inl ⟨rfl, ?_, fun _ => proposal⟩⟩⟩
        · dsimp only
          rw [if_pos proposal]
          rfl
        · exact not_isReversion_of_isFailure failure
    | success | otherKoinos | foreign =>
      refine .inr ⟨e, w', rfl, .inr ⟨e, openFrame w' rc outer, rfl, rfl, rfl, .inl ⟨rfl, ?_, ?_⟩⟩⟩
      · rw [isReversion, type]
        exact Bool.false_ne_true
      · intro failure
        rw [isFailure, type] at failure
        contradiction

/-- What the settlement of a transaction reads, as it stands in the frame. -/
def chargedFrame (trx : Transaction) (start : ResourceMeter) (w : World σ) (rc : UInt64) (outer : List PayerSession)
    (reverted : Option ChainException) (blockNode : ℕ) : TransactionFrame σ :=
  { finishedFrame (chargeWorld outer blockNode w) rc outer reverted with
    usedRc := (chargedSession trx outer w).usedRc
    logs := (chargedSession trx outer w).logs
    events := if reverted.isSome then [] else (chargedSession trx outer w).events
    diskStorageUsed := w.meter.diskStorageUsed - start.diskStorageUsed
    networkBandwidthUsed := w.meter.networkBandwidthUsed - start.networkBandwidthUsed
    computeBandwidthUsed := w.meter.computeBandwidthUsed - start.computeBandwidthUsed }

/-- The settlement up to the charge. -/
theorem settle_eq {reverted : Option ChainException} {start : ResourceMeter} :
    rt.settle intent trx (openedIn start w₁) (finishedFrame w rc outer reverted) =
      (do
        let consumed ← inWorld (rt.calls.consumeAccountRc trx.header.payer (chargedSession trx outer w).usedRc)
        let payer := rt.encoding.toBase58 trx.header.payer
        Exec.require consumed
          ⟨.failure .failure, text "unable to consume rc for payer: " ++ payer, [("p", .string payer)]⟩
        rt.recordReceipt intent trx : TransactionM σ Unit)
        (chargedFrame trx start w rc outer reverted w₁.stateNode) := rfl

/-- How a finished transaction is settled. -/
theorem settle_cases (intent : Intent) (rc : UInt64) (reverted : Option ChainException)
    (start : ResourceMeter) {outcome : EStateM.Result ChainException (World σ) Bool}
    (charged : rt.calls.consumeAccountRc trx.header.payer (chargedSession trx outer w).usedRc
      (chargeWorld outer w₁.stateNode w) = outcome) :
    (∃ w' w'' frame, outcome = .ok true w' ∧
      storeReceipt intent (rt.settledReceipt trx rc reverted.isSome outer start w w') w' = .ok () w'' ∧
      rt.settle intent trx (openedIn start w₁) (finishedFrame w rc outer reverted) = .ok () frame ∧
      frame.world = w'' ∧ frame.outerSessions = outer ∧ frame.revertedException = reverted) ∨
    ∃ e frame receipt,
      rt.settle intent trx (openedIn start w₁) (finishedFrame w rc outer reverted) = .error e frame ∧
      frame.world = (final outcome).setReceipt receipt ∧ (final outcome).receipt.Keeps intent receipt ∧
      frame.outerSessions = outer ∧
      ((∃ w', outcome = .error e w' ∧ frame = (chargedFrame trx start w rc outer reverted w₁.stateNode).setWorld w') ∨
        (∃ paid w', outcome = .ok paid w') ∧ ¬ e.isReversion) := by
  rw [settle_eq]
  cases outcome with
  | error e w' =>
    exact .inr ⟨e, _, w'.receipt, bind_of_error (within_of_error charged), rfl, .refl _ _, rfl, .inl ⟨w', rfl, rfl⟩⟩
  | ok paid w' =>
    rw [bind_of_ok (inWorld_of_ok charged)]
    cases paid with
    | false => exact .inr ⟨_, _, w'.receipt, rfl, rfl, .refl _ _, rfl, .inr ⟨⟨_, _, rfl⟩, Bool.false_ne_true⟩⟩
    | true =>
      obtain ⟨receipt, stores, kept⟩ :=
        final_storeReceipt intent (rt.settledReceipt trx rc reverted.isSome outer start w w') w'
      rw [bind_of_ok (require_true _ _), recordReceipt_eq]
      cases stored : storeReceipt intent (rt.settledReceipt trx rc reverted.isSome outer start w w') w' with
      | ok _ w'' =>
        exact .inl ⟨w', w'', _, rfl, stored, inWorld_of_ok stored, rfl, rfl, rfl⟩
      | error e w'' =>
        rw [stored] at stores
        refine .inr ⟨e, _, receipt, within_of_error stored, stores, kept, rfl, .inr ⟨⟨true, w', rfl⟩, ?_⟩⟩
        exact not_isReversion_of_isFailure (storeReceipt_throws stored)

/-- What runs under the guard of the transaction. -/
def guardedBody (rt : Runtime σ) (intent : Intent) (trx : Transaction) : TransactionM σ Unit := do
  let opened ← rt.openTransaction trx
  match ← rt.applyOperations intent trx opened with
  | .settle => rt.settle intent trx opened
  | .abandon => pure ()

/-- The assertions at the start. -/
theorem admitTransaction_cases (intent : Intent) (frame : TransactionFrame σ) :
    (frame.world.getCallerPrivilege = .kernelMode ∧ admitTransaction intent frame = .ok () frame) ∨
    (frame.world.getCallerPrivilege = .kernelMode → intent = .readOnly) ∧
      ∃ e, admitTransaction intent frame = .error e frame := by
  rw [admitTransaction, get_bind, requireKernelMode]
  by_cases kernel : frame.world.getCallerPrivilege = .kernelMode
  · rw [if_pos kernel]
    by_cases readOnly : intent = .readOnly
    · rw [readOnly]
      exact .inr ⟨fun _ => rfl, _, rfl⟩
    · rw [decide_eq_true readOnly]
      exact .inl ⟨kernel, rfl⟩
  · rw [if_neg kernel]
    exact .inr ⟨fun admitted => absurd admitted kernel, _, rfl⟩

/-- An exception that leaves the guard. -/
theorem applyTransaction_of_guarded_error
    (admits : admitTransaction intent ({ world := w } : TransactionFrame σ) = .ok () { world := w })
    (err : rt.guardedBody intent trx { world := w } = .error e frame) :
    ∃ e' receipt, rt.applyTransaction intent trx w =
      .error e' ((frame.world.endTransaction frame.outerSessions).setReceipt receipt) ∧
      frame.world.receipt.Keeps intent receipt ∧ rt.Rethrown intent trx (closeTransaction frame) e e'
        ((frame.world.endTransaction frame.outerSessions).setReceipt receipt) :=
  applyTransaction_of_error ((bind_of_ok admits).trans (within_of_error err))

theorem applyTransaction_of_guarded_ok
    (admits : admitTransaction intent ({ world := w } : TransactionFrame σ) = .ok () { world := w })
    (ok : rt.guardedBody intent trx { world := w } = .ok () frame) :
    rt.applyTransaction intent trx w =
      rethrow frame.revertedException (frame.world.endTransaction frame.outerSessions) :=
  applyTransaction_of_ok ((bind_of_ok admits).trans (within_of_ok ok))

end Frames

theorem transactionRun (intent : Intent) (trx : Transaction) (w : World σ) :
    rt.TransactionRun intent trx w (rt.applyTransaction intent trx w) := by
  rcases admitTransaction_cases intent ({ world := w } : TransactionFrame σ) with
    ⟨admitted, admits⟩ | ⟨denied, e, err⟩
  · cases checked : rt.checks trx (w.beginTransaction trx) with
    | error e w₁ =>
      obtain ⟨e', rc, opens, fatal⟩ := openTransaction_of_error checked
      obtain ⟨e'', receipt, applied, kept, same⟩ := applyTransaction_of_guarded_error admits (bind_of_error opens)
      rw [applied]
      exact .rejected admitted checked (same.elim (·.1 ▸ fatal) And.left) kept
    | ok rc w₁ =>
      have opens := openTransaction_of_ok checked
      rcases applyOperations_cases rt intent trx w.meter w₁ rc w.outerSessions with
        ⟨reverted, w₂, finished, operates⟩ |
        ⟨e, w₂, ran, ⟨failure, proposal, operates⟩ | ⟨e', frame, operates, rfl, outer, kind⟩⟩
      · have body : rt.guardedBody intent trx { world := w } =
            rt.settle intent trx (openedIn w.meter w₁) (finishedFrame w₂ rc w.outerSessions reverted) := by
          rw [guardedBody, bind_of_ok opens, bind_of_ok operates]
        generalize charged : rt.calls.consumeAccountRc trx.header.payer
          (chargedSession trx w.outerSessions w₂).usedRc (chargeWorld w.outerSessions w₁.stateNode w₂) = outcome
        refine .charged admitted checked finished ?_
        rw [charged]
        rcases settle_cases intent rc reverted w.meter charged with
          ⟨w₃, w₄, frame, rfl, stored, settles, rfl, outer, thrown⟩ |
          ⟨e, frame, receipt, settles, world, kept, outer, kind⟩
        · rw [applyTransaction_of_guarded_ok admits (body.trans settles), thrown, outer]
          exact .settled stored
        · obtain ⟨e', receipt', applied, kept', same⟩ := applyTransaction_of_guarded_error admits (body.trans settles)
          rw [applied]
          rcases kind with ⟨w₃, rfl, rfl⟩ | ⟨⟨paid, w₃, rfl⟩, fatal⟩
          · rcases same with ⟨rfl, stored⟩ | ⟨fatal, -⟩
            · by_cases reversion : e'.isReversion
              · exact .unpaid reversion (stored reversion)
              · exact .uncharged reversion kept'
            · exact .uncharged fatal kept'
          · rw [world] at kept'
            rw [world, outer]
            exact .unsettled (same.elim (·.1 ▸ fatal) And.left) fun block stored same =>
              (kept block stored same).elim fun stored' same' => kept' block stored' same'
      · have body : rt.guardedBody intent trx { world := w } =
            .ok () (openFrame (w₂.setStateNode w₁.stateNode) rc w.outerSessions) := by
          rw [guardedBody, bind_of_ok opens, bind_of_ok operates]
          rfl
        rw [applyTransaction_of_guarded_ok admits body]
        exact .abandoned admitted checked ran failure proposal
      · have body : rt.guardedBody intent trx { world := w } = .error e' frame := by
          rw [guardedBody, bind_of_ok opens, bind_of_error operates]
        obtain ⟨e'', receipt, applied, kept, same⟩ := applyTransaction_of_guarded_error admits body
        rw [applied, outer]
        rcases kind with ⟨rfl, kind, unhandled⟩ | ⟨reversion, invalid⟩
        · exact .broken admitted checked ran kind unhandled (same.imp_left And.left) kept
        · exact .unlogged admitted checked ran reversion invalid kept
  · obtain ⟨e', receipt, applied, kept, -⟩ := applyTransaction_of_error (bind_of_error err)
    rw [applied]
    exact .refused denied kept

end Runtime

end Teleno.Chain
