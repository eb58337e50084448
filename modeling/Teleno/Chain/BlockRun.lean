import Teleno.Chain.TransactionRun

/-! # How the transactions of a block are applied

The loop of `apply_block` makes the system call `apply_transaction` for one transaction after the other. It
goes on after a reversion and, in a proposal, after a failure. A statement about every transaction of a block is
made where the loop reaches it.

When a block is applied and the loop goes on after a transaction, then the transaction was checked, its
operations were committed or reverted, and there was an attempt to charge its payer; or the system call did not
get to the thunk; or the reversion of the transaction could not be logged.
-/

namespace Teleno.Chain

open Library StateDb Exec BlockContext List World

variable {σ : Type}

namespace World

/-- The world in the frame of a system call. -/
def inSystemCall (w : World σ) : World σ := { w with stack := .systemCall :: w.stack }

/-- The world in which `apply_block` reads the limits. -/
def openBlock (w : World σ) (block : Block) : World σ := { w with receipt := .block {}, block := some block }

end World

variable {ctx ctx' : BlockContext σ}

namespace BlockContext

variable {α : Type} {program : WorldM σ α}

theorem onWorld_eq_ok {a : α} (ok : onWorld program ctx = .ok a ctx') : program ctx.world = .ok a ctx'.world := by
  obtain ⟨w, ran, rfl⟩ := within_eq_ok ok
  exact ran

end BlockContext

namespace Runtime

variable {rt : Runtime σ} {intent : Intent} {trx : Transaction}

section Loop

/-- The loop goes on when a transaction has ended like this. -/
def Continues (intent : Intent) : EStateM.Result ChainException (World σ) Unit → Prop
  | .ok _ _ => True
  | .error e _ => e.isReversion ∨ e.isFailure ∧ intent = .blockProposal

theorem applyTransactionAt_eq_ok {i : ℕ} {ctx ctx' : BlockContext σ}
    (ok : rt.applyTransactionAt intent i trx ctx = .ok () ctx') :
    Continues intent (rt.callApplyTransaction intent trx ctx.world) := by
  rcases tryCatch_eq_ok ok with called | ⟨e, ctx₁, err, handled⟩
  · rw [onWorld_eq_ok called]
    exact trivial
  · obtain ⟨w, ran, rfl⟩ := within_eq_error err
    rw [ran]
    cases type : e.type with
    | reversion kind => exact .inl (ChainException.isReversion_iff.mpr ⟨kind, type⟩)
    | failure kind =>
      rw [type] at handled
      dsimp only at handled
      split_ifs at handled with proposal
      · exact .inr ⟨ChainException.isFailure_iff.mpr ⟨kind, type⟩, proposal⟩
      · contradiction
    | success | otherKoinos | foreign =>
      rw [type] at handled
      contradiction

/-- A round of the loop changes the world as the system call does. -/
theorem world_applyTransactionAt (rt : Runtime σ) (intent : Intent) (i : ℕ) (trx : Transaction) (ctx : BlockContext σ) :
    (final (rt.applyTransactionAt intent i trx ctx)).world = final (rt.callApplyTransaction intent trx ctx.world) := by
  refine (final_tryCatch world fun e ctx' => ?_).trans ?_
  · cases e.type with
    | failure =>
      dsimp only
      split <;> rfl
    | reversion | success | otherKoinos | foreign => rfl
  · rw [final_within]
    rfl

/-- What holds of every transaction where the loop reaches it. -/
def EachReached (rt : Runtime σ) (intent : Intent) (property : Transaction → World σ → Prop) (i : ℕ)
    (transactions : List Transaction) (ctx : BlockContext σ) : Prop :=
  ∀ before trx after reached, transactions = before ++ trx :: after →
    rt.applyTransactions intent i before ctx = .ok () reached → property trx reached.world

namespace EachReached

variable {property : Transaction → World σ → Prop} {i : ℕ} {rest : List Transaction}

theorem head (each : rt.EachReached intent property i (trx :: rest) ctx) : property trx ctx.world :=
  each [] trx rest ctx rfl rfl

theorem tail (each : rt.EachReached intent property i (trx :: rest) ctx)
    (ok : rt.applyTransactionAt intent i trx ctx = .ok () ctx') : rt.EachReached intent property (i + 1) rest ctx' := by
  intro before trx' after reached split ran
  refine each (trx :: before) trx' after reached (by rw [split, cons_append]) ?_
  exact (bind_of_ok ok).trans ran

theorem nil (ctx : BlockContext σ) : rt.EachReached intent property i [] ctx := by
  intro before trx after reached split
  simp at split

theorem cons (here : property trx ctx.world) (later : ∀ ctx', rt.applyTransactionAt intent i trx ctx = .ok () ctx' →
      rt.EachReached intent property (i + 1) rest ctx') : rt.EachReached intent property i (trx :: rest) ctx := by
  intro before trx' after reached split ran
  cases before with
  | nil =>
    obtain ⟨rfl, -⟩ := cons.inj split
    cases ran
    exact here
  | cons first before =>
    obtain ⟨rfl, rest⟩ := cons.inj split
    obtain ⟨_, ctx', ok, ran⟩ := bind_eq_ok ran
    exact later ctx' ok before trx' after reached rest ran

theorem of_append {before after : List Transaction}
    (each : rt.EachReached intent property i (before ++ after) ctx) : rt.EachReached intent property i before ctx := by
  intro first trx rest reached split ran
  refine each first trx (rest ++ after) reached ?_ ran
  rw [split, append_assoc, cons_append]

instance decidable [∀ trx w, Decidable (property trx w)] (i : ℕ) (transactions : List Transaction)
    (ctx : BlockContext σ) : Decidable (rt.EachReached intent property i transactions ctx) :=
  match transactions with
  | [] => .isTrue (nil ctx)
  | trx :: rest =>
    match outcome : rt.applyTransactionAt intent i trx ctx with
    | .ok _ ctx' =>
      have := decidable (i + 1) rest ctx'
      decidable_of_iff (property trx ctx.world ∧ rt.EachReached intent property (i + 1) rest ctx')
        ⟨fun each => cons each.1 fun ctx'' ok => by cases outcome.symm.trans ok; exact each.2,
          fun each => ⟨each.head, each.tail outcome⟩⟩
    | .error _ _ =>
      decidable_of_iff (property trx ctx.world)
        ⟨(cons · fun _ ok => nomatch outcome.symm.trans ok), head⟩

end EachReached

/-- What holds of every transaction of a block where the loop reaches it. -/
def EachTransaction (rt : Runtime σ) (property : Transaction → World σ → Prop) (block : Block)
    (ctx : BlockContext σ) : Prop :=
  ∀ start, rt.reachTransactions block ctx = .ok () start →
    rt.EachReached .blockApplication property 0 block.transactions start

instance (property : Transaction → World σ → Prop) [∀ trx w, Decidable (property trx w)] (block : Block)
    (ctx : BlockContext σ) : Decidable (rt.EachTransaction property block ctx) :=
  match outcome : rt.reachTransactions block ctx with
  | .ok _ start =>
    decidable_of_iff (rt.EachReached .blockApplication property 0 block.transactions start)
      ⟨fun each start' reaches => by cases outcome.symm.trans reaches; exact each, fun each => each start outcome⟩
  | .error _ _ => .isTrue fun _ reaches => nomatch outcome.symm.trans reaches

/-- What one transaction does to a property of the transactions so far and the world, the loop does. -/
theorem applyTransactions_invariant {property : Transaction → World σ → Prop}
    {holds : List Transaction → World σ → Prop}
    (step : ∀ done trx w, holds done w → property trx w → Continues intent (rt.callApplyTransaction intent trx w) →
      holds (done ++ [trx]) (final (rt.callApplyTransaction intent trx w)))
    {i : ℕ} {transactions done : List Transaction} {ctx ctx' : BlockContext σ}
    (each : rt.EachReached intent property i transactions ctx)
    (ok : rt.applyTransactions intent i transactions ctx = .ok () ctx') (start : holds done ctx.world) :
    holds (done ++ transactions) ctx'.world := by
  induction transactions generalizing i done ctx with
  | nil =>
    cases ok
    rwa [append_nil]
  | cons trx rest ih =>
    obtain ⟨_, ctx₁, applied, ok⟩ := bind_eq_ok ok
    have next := step done trx ctx.world start each.head (applyTransactionAt_eq_ok applied)
    rw [← rt.world_applyTransactionAt intent i, applied] at next
    have last := ih (each.tail applied) ok next
    rwa [append_assoc] at last

end Loop

variable {w : World σ}

section Call

variable {w' : World σ}

/-- The system call `apply_transaction` gets to its thunk. -/
def Enters (rt : Runtime σ) (trx : Transaction) (w u : World σ) : Prop :=
  rt.calls.enter (.applyTransaction trx) w.inSystemCall = .ok true u

theorem Enters.unique {u u' : World σ} (enters : rt.Enters trx w u) (enters' : rt.Enters trx w u') : u' = u := by
  rw [Enters, enters] at enters'
  cases enters'
  rfl

theorem callApplyTransaction_cases (intent : Intent) (trx : Transaction) (room : w.stack.length < stackLimit) :
    (∃ u, rt.Enters trx w u ∧
      final (rt.callApplyTransaction intent trx w) = (final (rt.applyTransaction intent trx u)).popFrame ∧
      (Continues intent (rt.callApplyTransaction intent trx w) ↔ Continues intent (rt.applyTransaction intent trx u))) ∨
    (¬ ∃ u, rt.Enters trx w u) ∧ final (rt.callApplyTransaction intent trx w) =
      (final (rt.calls.enter (.applyTransaction trx) w.inSystemCall)).popFrame := by
  have framed : rt.callApplyTransaction intent trx w = bracket popFrame (do
      if ← rt.calls.enter (.applyTransaction trx) then rt.applyTransaction intent trx) w.inSystemCall :=
    bind_of_ok (pushFrame_of_lt _ room)
  cases entered : rt.calls.enter (.applyTransaction trx) w.inSystemCall with
  | error e u =>
    refine .inr ⟨by simp [Enters, entered], ?_⟩
    rw [framed, final_within, id, bind_of_error entered]
    rfl
  | ok runs u =>
    cases runs with
    | false =>
      refine .inr ⟨by simp [Enters, entered], ?_⟩
      rw [framed, final_within, id, bind_of_ok entered]
      rfl
    | true =>
      have body : (do if ← rt.calls.enter (.applyTransaction trx) then rt.applyTransaction intent trx)
          w.inSystemCall = rt.applyTransaction intent trx u := bind_of_ok entered
      refine .inl ⟨u, entered, ?_⟩
      cases applied : rt.applyTransaction intent trx u with
      | ok _ w' =>
        have called : rt.callApplyTransaction intent trx w = .ok () w'.popFrame :=
          framed.trans (within_of_ok (body.trans applied))
        rw [called]
        exact ⟨rfl, .rfl⟩
      | error e w' =>
        have called : rt.callApplyTransaction intent trx w = .error e w'.popFrame :=
          framed.trans (within_of_error (body.trans applied))
        rw [called]
        exact ⟨rfl, .rfl⟩

end Call

section Conclusion

theorem storeReceipt_eq_ok {receipt : TransactionReceipt} {w w' : World σ}
    (stores : storeReceipt .blockApplication receipt w = .ok () w') :
    ∃ old, w.receipt = .block old ∧ w' = w.setReceipt (.block (old.addTransactionReceipt receipt)) := by
  change addTransactionReceipt receipt w = .ok () w' at stores
  rw [addTransactionReceipt, get_bind] at stores
  cases stored : w.receipt with
  | block old =>
    rw [stored] at stores
    cases stores
    exact ⟨old, rfl, rfl⟩
  | none | transaction =>
    rw [stored] at stores
    contradiction

/-- If the operations of the transaction raise a reversion, it can be logged. -/
def Loggable (rt : Runtime σ) (trx : Transaction) (w : World σ) : Prop :=
  ∀ u rc w₁ e w₂, rt.Enters trx w u → rt.checks trx (u.beginTransaction trx) = .ok rc w₁ →
    rt.operate trx w₁.stateNode w₁.heap.size w₁.onTransactionNode = .error e w₂ → e.isReversion →
    rt.encoding.validateUtf (revertedMessage e) = true

instance (rt : Runtime σ) (trx : Transaction) (w : World σ) : Decidable (rt.Loggable trx w) :=
  match entered : rt.calls.enter (.applyTransaction trx) w.inSystemCall with
  | .error _ _ | .ok false _ => .isTrue (by
      intro u rc w₁ e w₂ enters
      rw [Enters, entered] at enters
      cases enters)
  | .ok true u =>
    match checked : rt.checks trx (u.beginTransaction trx) with
    | .error _ _ => .isTrue (by
        intro u' rc w₁ e w₂ enters checks
        rw [Enters, entered] at enters
        cases enters
        rw [checked] at checks
        contradiction)
    | .ok rc w₁ => decidable_of_iff (¬ Throws (fun e => e.isReversion ∧
        rt.encoding.validateUtf (revertedMessage e) = false) (rt.operate trx w₁.stateNode w₁.heap.size)
          w₁.onTransactionNode) (by
        constructor
        · intro logged u' rc' w₁' e w₂ enters checks ran reversion
          rw [Enters, entered] at enters
          cases enters
          rw [checked] at checks
          cases checks
          cases valid : rt.encoding.validateUtf (revertedMessage e) with
          | true => rfl
          | false => exact absurd ⟨e, w₂, ran, reversion, valid⟩ logged
        · rintro loggable ⟨e, w₂, ran, reversion, invalid⟩
          rw [loggable u rc w₁ e w₂ entered checked ran reversion] at invalid
          contradiction)

/-- A transaction of a block was applied: it was checked, its operations were committed or reverted, and there
was an attempt to charge its payer, which got through or was reverted. -/
structure Concluded (rt : Runtime σ) (trx : Transaction) (w : World σ) (rc : UInt64)
    (reverted : Option ChainException) (w₁ w₂ : World σ) (outcome : EStateM.Result ChainException (World σ) Bool)
    (w' : World σ) : Prop where
  checked : rt.checks trx (w.beginTransaction trx) = .ok rc w₁
  finished : rt.Finished trx w₁ reverted w₂
  charged : rt.calls.consumeAccountRc trx.header.payer (chargedSession trx w.outerSessions w₂).usedRc
    (chargeWorld w.outerSessions w₁.stateNode w₂) = outcome
  paid : (∃ charged, outcome = .ok true charged) ∨ ∃ e charged, outcome = .error e charged ∧ e.isReversion
  stored : ∃ old, (final outcome).receipt = .block old ∧
    w' = ((final outcome).endTransaction w.outerSessions).setReceipt (.block (old.addTransactionReceipt
      (rt.settledReceipt trx rc reverted.isSome w.outerSessions w.meter w₂ (final outcome))))

theorem TransactionRun.concluded {result : EStateM.Result ChainException (World σ) Unit}
    (run : rt.TransactionRun .blockApplication trx w result) (admitted : w.getCallerPrivilege = .kernelMode)
    (continues : Continues .blockApplication result)
    (loggable : ∀ rc w₁ e w₂, rt.checks trx (w.beginTransaction trx) = .ok rc w₁ →
      rt.operate trx w₁.stateNode w₁.heap.size w₁.onTransactionNode = .error e w₂ → e.isReversion →
      rt.encoding.validateUtf (revertedMessage e) = true) :
    ∃ rc reverted w₁ w₂ outcome, rt.Concluded trx w rc reverted w₁ w₂ outcome (final result) := by
  have reverts : ∀ {e : ChainException} {w' : World σ},
      Continues .blockApplication (.error e w' : EStateM.Result ChainException (World σ) Unit) → e.isReversion := by
    rintro e w' (reversion | ⟨-, ⟨⟩⟩)
    exact reversion
  cases run with
  | refused denied => exact absurd (denied admitted) (by decide)
  | rejected _ _ fatal => exact absurd (reverts continues) fatal
  | broken _ _ _ kind _ thrown =>
    rcases thrown with rfl | ⟨fatal, -⟩
    · exact absurd (reverts continues) kind
    · exact absurd (reverts continues) fatal
  | abandoned _ _ _ _ proposal => cases proposal
  | unlogged _ checked ran reversion invalid =>
    rw [loggable _ _ _ _ checked ran reversion] at invalid
    contradiction
  | charged _ checked finished settles =>
    generalize charged : rt.calls.consumeAccountRc _ _ _ = outcome at settles
    cases settles with
    | uncharged fatal | unsettled fatal => exact absurd (reverts continues) fatal
    | unpaid reversion stored =>
      obtain ⟨old, before, rfl⟩ := storeReceipt_eq_ok stored
      exact ⟨_, _, _, _, _, checked, finished, charged, .inr ⟨_, _, rfl, reversion⟩, old, before, rfl⟩
    | settled stored =>
      obtain ⟨old, before, rfl⟩ := storeReceipt_eq_ok stored
      refine ⟨_, _, _, _, _, checked, finished, charged, .inl ⟨_, rfl⟩, old, before, ?_⟩
      rw [final_rethrow]
      rfl

end Conclusion

section Block

variable {block : Block}

/-- The frame of a system call on a stack with room for it. -/
theorem pushFrame_eq_ok {w w' : World σ} (pushes : pushFrame .systemCall w = .ok () w') :
    w' = w.inSystemCall := by
  by_cases room : w.stack.length < stackLimit
  · rw [pushFrame_of_lt _ room, EStateM.Result.ok.injEq] at pushes
    exact pushes.2.symm
  · obtain ⟨e, err⟩ := pushFrame_of_not_lt .systemCall room
    rw [err] at pushes
    contradiction

/-- The loop starts after the block was checked and made the head block. -/
theorem reachTransactions_eq_ok {start : BlockContext σ} (reaches : rt.reachTransactions block ctx = .ok () start) :
    ∃ u v v' limits, rt.calls.enter (.applyBlock block) ctx.world.inSystemCall = .ok true u ∧
      u.getCallerPrivilege = .kernelMode ∧ rt.calls.getResourceLimits (u.openBlock block) = .ok limits v ∧
      rt.verifyBlock block { v with meter := .ofLimits limits } = .ok () v' ∧
      rt.putHeadBlock block v' = .ok () start.world := by
  obtain ⟨_, pushed, pushes, reaches⟩ := bind_eq_ok reaches
  have inside := pushFrame_eq_ok (onWorld_eq_ok pushes)
  obtain ⟨runs, entered, enters, reaches⟩ := bind_eq_ok reaches
  obtain ⟨_, _, required, reaches⟩ := bind_eq_ok reaches
  obtain ⟨rfl, rfl⟩ := require_eq_ok_iff.mp required
  obtain ⟨_, marked, ⟨⟩, reaches⟩ := bind_eq_ok reaches
  obtain ⟨_, admitted, admits, reaches⟩ := bind_eq_ok reaches
  have kernel : entered.world.getCallerPrivilege = .kernelMode ∧
      admitted = entered.setWorld { entered.world with receipt := .block {} } := by
    rw [admitBlock, get_bind, requireKernelMode] at admits
    split_ifs at admits with kernel
    · cases admits
      exact ⟨kernel, rfl⟩
    · contradiction
  obtain ⟨kernel, rfl⟩ := kernel
  obtain ⟨_, opened, ⟨⟩, reaches⟩ := bind_eq_ok reaches
  have before := onWorld_eq_ok reaches
  obtain ⟨limits, v, reads, before⟩ := bind_eq_ok before
  obtain ⟨_, _, ⟨⟩, before⟩ := bind_eq_ok before
  obtain ⟨_, v', verifies, writes⟩ := bind_eq_ok before
  refine ⟨entered.world, v, v', limits, ?_, kernel, reads, verifies, writes⟩
  rw [← inside]
  exact onWorld_eq_ok enters

theorem generateBlockReceipt_eq_ok {charged : ResourceMeter} {w w' : World σ}
    (ok : rt.generateBlockReceipt block charged w = .ok () w') :
    ∃ old, w.receipt = .block old ∧ w' = w.setReceipt (.block (rt.fillBlockReceipt block charged w old)) := by
  rw [generateBlockReceipt, get_bind] at ok
  cases stored : w.receipt with
  | block old =>
    rw [stored] at ok
    cases ok
    exact ⟨old, rfl, rfl⟩
  | none | transaction =>
    rw [stored] at ok
    contradiction

/-- A block that was applied went through its phases, unless an override took the place of `apply_block`. -/
theorem callApplyBlock_eq_ok (ok : rt.callApplyBlock .blockApplication block ctx = .ok () ctx') :
    (∃ start reached charged w old, rt.reachTransactions block ctx = .ok () start ∧
      rt.applyTransactions .blockApplication 0 block.transactions start = .ok () reached ∧
      rt.afterTransactions block reached.world = .ok charged w ∧ w.receipt = .block old ∧
      ctx'.world = ({ w with
        receipt := .block (rt.fillBlockReceipt block charged w old), block := none } : World σ).popFrame) ∨
    ∃ w, rt.calls.enter (.applyBlock block) ctx.world.inSystemCall = .ok false w ∧ ctx'.world = w.popFrame := by
  obtain ⟨_, pushed, pushes, ok⟩ := bind_eq_ok ok
  obtain ⟨ended, ran, left⟩ := within_eq_ok ok
  have inside := pushFrame_eq_ok (onWorld_eq_ok pushes)
  obtain ⟨runs, entered, enters, ran⟩ := bind_eq_ok ran
  cases runs with
  | false =>
    obtain rfl : entered = ended := (EStateM.Result.ok.inj ran).2
    refine .inr ⟨entered.world, ?_, by rw [left]; rfl⟩
    rw [← inside]
    exact onWorld_eq_ok enters
  | true =>
    obtain ⟨_, marked, marks, ran⟩ := bind_eq_ok ran
    rcases tryCatch_eq_ok ran with body | ⟨e, failed, _, handled⟩
    · obtain ⟨_, admitted, admits, body⟩ := bind_eq_ok body
      obtain ⟨_, opened, opens, body⟩ := bind_eq_ok body
      obtain ⟨closed, body', closes⟩ := within_eq_ok body
      obtain ⟨_, start, starts, body'⟩ := bind_eq_ok body'
      obtain ⟨_, reached, loops, body'⟩ := bind_eq_ok body'
      obtain ⟨charged, after, consumes, body'⟩ := bind_eq_ok body'
      have generates := onWorld_eq_ok body'
      obtain ⟨old, stored, filled⟩ := generateBlockReceipt_eq_ok generates
      refine .inl ⟨start, reached, charged, after.world, old, ?_, loops, onWorld_eq_ok consumes, stored, ?_⟩
      · exact (bind_of_ok pushes).trans ((bind_of_ok enters).trans ((bind_of_ok (require_true _ _)).trans
          ((bind_of_ok marks).trans ((bind_of_ok admits).trans ((bind_of_ok opens).trans starts)))))
      · rw [left, closes]
        change popFrame { closed.world with block := none } = _
        rw [filled]
        rfl
    · exact absurd handled (rethrowWithBlockReceipt_throws e failed).not_ok

end Block

end Runtime

end Teleno.Chain
