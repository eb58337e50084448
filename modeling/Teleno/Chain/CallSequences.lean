import Teleno.Chain.SystemCalls

/-! # Sequences of system calls

Between the steps by which applying blocks and transactions changes the context itself, it makes system
calls, charges network bandwidth and keeps the block hash code and the current operation. What all system
calls do to the world, as a preorder, such a sequence does as well.
-/

namespace Teleno.Chain

open Library Exec

variable {σ : Type}

/-- However a system call ends, it relates the worlds before and after it. -/
structure SystemCalls.Move (calls : SystemCalls σ) (rel : World σ → World σ → Prop) : Prop where
  enter : ∀ thunk, Moves rel (calls.enter thunk)
  getResourceLimits : Moves rel calls.getResourceLimits
  hash : ∀ code bytes, Moves rel (calls.hash code bytes)
  verifyMerkleRoot : ∀ root hashes, Moves rel (calls.verifyMerkleRoot root hashes)
  processBlockSignature : ∀ id header signature, Moves rel (calls.processBlockSignature id header signature)
  preBlockCallback : Moves rel calls.preBlockCallback
  postBlockCallback : Moves rel calls.postBlockCallback
  consumeAccountRc : ∀ account rc, Moves rel (calls.consumeAccountRc account rc)
  consumeBlockResources : ∀ disk network compute,
    Moves rel (calls.consumeBlockResources disk network compute)
  getAccountRc : ∀ account, Moves rel (calls.getAccountRc account)
  getObject : ∀ space key, Moves rel (calls.getObject space key)
  checkAuthority : ∀ type account, Moves rel (calls.checkAuthority type account)
  verifyAccountNonce : ∀ account nonce, Moves rel (calls.verifyAccountNonce account nonce)
  getAccountNonce : ∀ account, Moves rel (calls.getAccountNonce account)
  preTransactionCallback : Moves rel calls.preTransactionCallback
  postTransactionCallback : Moves rel calls.postTransactionCallback
  applyUploadContractOperation : ∀ o, Moves rel (calls.applyUploadContractOperation o)
  applyCallContractOperation : ∀ o, Moves rel (calls.applyCallContractOperation o)
  applySetSystemCallOperation : ∀ o, Moves rel (calls.applySetSystemCallOperation o)
  applySetSystemContractOperation : ∀ o, Moves rel (calls.applySetSystemContractOperation o)

/-- The relation also allows for what happens between the system calls. -/
structure Lenient (rel : World σ → World σ → Prop) : Prop where
  blockHashCode : ∀ w code, rel w { w with blockHashCode := code }
  operation : ∀ w op, rel w { w with operation := op }
  pushLog : ∀ message, Moves rel (World.pushLog message)
  useNetworkBandwidth : ∀ bytes, Moves rel (World.useNetworkBandwidth bytes)

namespace Runtime

variable {rt : Runtime σ} {rel : World σ → World σ → Prop} [IsPreorder (World σ) rel]

theorem moves_blockHashCode (lenient : Lenient rel) : Moves rel rt.blockHashCode := by
  intro w
  rw [blockHashCode, get_bind]
  cases w.blockHashCode with
  | some code => exact refl_of rel w
  | none =>
    cases w.heap.getObject rt.codec w.getParentNode rt.encoding.metadata (rt.objectKey "block_hash_code") with
    | none => exact refl_of rel w
    | some bytes =>
      dsimp only
      cases rt.encoding.parseVarint bytes with
      | error e => exact refl_of rel w
      | ok code => exact lenient.blockHashCode w (some code)

theorem moves_hash (calls : rt.calls.Move rel) (lenient : Lenient rel) (bytes : Bytes) : Moves rel (rt.hash bytes) :=
  .bind (moves_blockHashCode lenient) fun code => calls.hash code bytes

theorem moves_requireHashCode (lenient : Lenient rel) (root : Bytes) (subject was : String) (kind : FailureKind) :
    Moves rel (rt.requireHashCode root subject was kind) := by
  refine .bind (.ofExcept _) fun parsed => ?_
  refine .bind (moves_blockHashCode lenient) fun code => ?_
  exact .require _ _

theorem moves_log (lenient : Lenient rel) (message : Bytes) : Moves rel (rt.log message) :=
  .bind (.require _ _) fun _ => lenient.pushLog message

theorem moves_requireAuthority (calls : rt.calls.Move rel) (account : Bytes) :
    Moves rel (rt.requireAuthority account) :=
  .bind (calls.checkAuthority _ account) fun _ => .require _ _

theorem moves_requireNonce (calls : rt.calls.Move rel) (trx : Transaction) : Moves rel (rt.requireNonce trx) := by
  refine .bind (calls.verifyAccountNonce _ _) fun verified => ?_
  split
  · exact .pure _
  · refine .get_bind fun w => ?_
    cases w.mempoolNonce with
    | some nonce => exact .throw _
    | none => exact .bind (calls.getAccountNonce _) fun current => .throw _

/-- Hashing a list. -/
theorem moves_mapM {α β : Type} {visit : α → WorldM σ β} (each : ∀ a, Moves rel (visit a)) (list : List α) :
    Moves rel (list.mapM visit) := by
  induction list with
  | nil => exact .pure _
  | cons a rest ih =>
    rw [List.mapM_cons]
    exact .bind (each a) fun b => .bind ih fun bs => .pure _

/-- The checks on a transaction, with a last step that writes its nonce. -/
theorem moves_verifyTransaction (calls : rt.calls.Move rel) (lenient : Lenient rel)
    (setAccountNonce : ∀ account nonce, Moves rel (rt.calls.setAccountNonce account nonce)) (trx : Transaction)
    (payerRc : UInt64) : Moves rel (rt.verifyTransaction trx payerRc) := by
  refine .bind (.require _ _) fun _ => ?_
  refine .bind (calls.getObject _ _) fun chainId => ?_
  refine .bind (.require _ _) fun _ => ?_
  refine .bind (.require _ _) fun _ => ?_
  refine .bind (moves_hash calls lenient _) fun id => ?_
  refine .bind (.require _ _) fun _ => ?_
  refine .bind (moves_requireHashCode lenient _ _ _ _) fun _ => ?_
  refine .bind (moves_mapM (fun op => moves_hash calls lenient _) _) fun hashes => ?_
  refine .bind (calls.verifyMerkleRoot _ _) fun valid => ?_
  refine .bind (.require _ _) fun _ => ?_
  refine .bind (moves_requireAuthority calls _) fun _ => ?_
  split
  case' isTrue => refine .bind (moves_requireAuthority calls _) fun _ => ?_
  all_goals
    refine .bind (moves_requireNonce calls trx) fun _ => ?_
    refine .bind (setAccountNonce _ _) fun _ => ?_
    exact lenient.useNetworkBandwidth _

theorem moves_applyOperation (calls : rt.calls.Move rel) (lenient : Lenient rel) (op : Operation) :
    Moves rel (rt.applyOperation op) := by
  refine .bind (.modify fun w => lenient.operation w (some op)) fun _ => ?_
  refine .within ?_ fun w w' moved => trans_of rel moved (lenient.operation w' none)
  cases op with
  | uploadContract o => exact calls.applyUploadContractOperation o
  | callContract o => exact calls.applyCallContractOperation o
  | setSystemCall o => exact calls.applySetSystemCallOperation o
  | setSystemContract o => exact calls.applySetSystemContractOperation o
  | unset => exact .throw _

/-- The operations phase before the transaction's node is committed. -/
def operations (rt : Runtime σ) (trx : Transaction) : WorldM σ Unit := do
  rt.calls.preTransactionCallback
  trx.operations.forM rt.applyOperation
  rt.calls.postTransactionCallback

theorem moves_operations (calls : rt.calls.Move rel) (lenient : Lenient rel) (trx : Transaction) :
    Moves rel (rt.operations trx) := by
  refine .bind calls.preTransactionCallback fun _ => ?_
  refine .bind (.forM (moves_applyOperation calls lenient) _) fun _ => ?_
  exact calls.postTransactionCallback

theorem runOperations_eq (trx : Transaction) (opened : OpenedTransaction) :
    rt.runOperations trx opened =
      (rt.operations trx >>= fun _ => World.commitAnonymousNode opened.blockNode opened.trxNode) := by
  rw [runOperations, operations]
  simp

theorem moves_transactionHashes (calls : rt.calls.Move rel) (lenient : Lenient rel)
    (transactions : List Transaction) : Moves rel (rt.transactionHashes transactions) := by
  refine .bind (moves_mapM (fun trx => ?_) _) fun hashes => .pure _
  refine .bind (moves_hash calls lenient _) fun header => ?_
  exact .bind (moves_hash calls lenient _) fun signatures => .pure _

theorem moves_verifyBlock (calls : rt.calls.Move rel) (lenient : Lenient rel) (block : Block) :
    Moves rel (rt.verifyBlock block) := by
  refine .bind (moves_hash calls lenient _) fun id => ?_
  refine .bind (.require _ _) fun _ => ?_
  refine .bind (moves_requireHashCode lenient _ _ _ _) fun _ => ?_
  refine .bind (moves_transactionHashes calls lenient _) fun hashes => ?_
  refine .bind (lenient.useNetworkBandwidth _) fun _ => ?_
  refine .bind (calls.verifyMerkleRoot _ _) fun valid => ?_
  refine .bind (.require _ _) fun _ => ?_
  refine .bind (moves_hash calls lenient _) fun headerHash => ?_
  refine .bind (.ofExcept _) fun digest => ?_
  refine .bind (calls.processBlockSignature _ _ _) fun signed => ?_
  exact .bind (.require _ _) fun _ => calls.preBlockCallback

/-- `apply_block` up to the transaction loop, when the relation also allows for the reset of the meter and
for writing the head block. -/
theorem moves_beforeTransactions (calls : rt.calls.Move rel) (lenient : Lenient rel)
    (meter : ∀ w limits, rel w { w with meter := .ofLimits limits }) (block : Block)
    (head : Moves rel (rt.putHeadBlock block)) : Moves rel (rt.beforeTransactions block) := by
  refine .bind calls.getResourceLimits fun limits => ?_
  refine .bind (.modify fun w => meter w limits) fun _ => ?_
  exact .bind (moves_verifyBlock calls lenient block) fun _ => head

theorem moves_afterTransactions (calls : rt.calls.Move rel) (block : Block) :
    Moves rel (rt.afterTransactions block) := by
  refine .bind calls.postBlockCallback fun _ => ?_
  refine .get_bind fun w => ?_
  refine .bind (calls.consumeAccountRc _ _) fun consumed => ?_
  refine .bind (.require _ _) fun _ => ?_
  refine .get_bind fun w' => ?_
  refine .bind (calls.consumeBlockResources _ _ _) fun consumed => ?_
  exact .bind (.require _ _) fun _ => .pure _

/-- The world of a block is related, whatever the failed indices. -/
def OnWorld (rel : World σ → World σ → Prop) (ctx ctx' : BlockContext σ) : Prop := rel ctx.world ctx'.world

instance : IsPreorder (BlockContext σ) (OnWorld rel) where
  refl ctx := refl_of rel ctx.world
  trans _ _ _ first second := trans_of rel first second

omit [IsPreorder (World σ) rel] in
theorem moves_onWorld {α : Type} {program : WorldM σ α} (moves : Moves rel program) :
    Moves (OnWorld rel) (BlockContext.onWorld program) := .within moves fun _ _ => id

/-- The transaction loop, when the relation holds over each transaction. -/
theorem moves_applyTransactions {intent : Intent} (call : ∀ trx, Moves rel (rt.callApplyTransaction intent trx)) (i : ℕ)
    (transactions : List Transaction) : Moves (OnWorld rel) (rt.applyTransactions intent i transactions) := by
  have noted : ∀ i, Moves (OnWorld rel) (BlockContext.addFailedTransactionIndex i) :=
    fun i => .modify fun ctx => refl_of rel ctx.world
  induction transactions generalizing i with
  | nil => exact .pure _
  | cons trx rest ih =>
    refine .bind (.tryCatch (moves_onWorld (call trx)) fun e => ?_) fun _ => ih (i + 1)
    cases e.type with
    | reversion => exact .pure _
    | failure =>
      dsimp only
      split
      · exact noted i
      · exact .throw _
    | success | otherKoinos | foreign => exact .throw _

end Runtime

end Teleno.Chain
