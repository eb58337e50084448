import Teleno.Chain.Confinement

/-! # Blocks and transactions inside contracts

A contract may call `apply_block` or `apply_transaction` itself. In user mode the call is refused. In kernel
mode a whole block or transaction runs inside the contract's call, on nodes of its own; all that is left to say
of the state is that the nodes below the current one stay as they are.
-/

namespace Teleno.Chain

open Library StateDb Exec Chain.Runtime

namespace Platform

variable {p : Platform} {scope : Scope} {w w₀ w₁ w' : World Host} {new : List Incident}

/-- When nothing is said about the state, it is enough to keep the stack, the journal and the lower nodes. -/
theorem Logs.reground (busy : ¬ scope.calm) (logs : p.Logs scope w₀ new w₁) (stack : w₀.stack = w.stack)
    (journal : w₀.rest.journal = w.rest.journal) (stack' : w'.stack = w₁.stack)
    (journal' : w'.rest.journal = w₁.rest.journal) (grounded : Grounded w w') : p.Logs scope w new w' :=
  { logs with
    stack := by rw [stack', logs.stack, stack]
    journal := by rw [journal', logs.journal, journal]
    grounded := grounded
    isolated calm := absurd calm busy }

/-- A step of native code that is not in the journal. -/
theorem run_silent (busy : ¬ scope.calm) (stack : w'.stack = w.stack) (journal : w'.rest.journal = w.rest.journal)
    (grounded : Grounded w w') : p.Run scope w w' :=
  (Run.refl w).imp fun _ logs => logs.reground busy rfl rfl stack journal grounded

/-- A run from a world with a given stack. -/
theorem run_of_moves {α : Type} {program : HostM α} {pre : List StackFrame → Prop} {stack : List StackFrame}
    (moves : Moves (p.Within scope pre) program) (same : w.stack = stack) (holds : pre stack) :
    p.Run (scope.under stack) w (final (program w)) := by
  subst same
  exact moves w holds

section Transaction

variable {level : Level} {trx : Transaction}

/-- The operations phase inside a contract. -/
theorem run_operate (busy : ¬ scope.calm)
    (ran : p.Run scope w.onTransactionNode (final ((p.runtime level).operations trx w.onTransactionNode))) :
    p.Run scope w (final ((p.runtime level).operate trx w.stateNode w.heap.size w.onTransactionNode)) ∧
      p.Run scope w ((final ((p.runtime level).operate trx w.stateNode w.heap.size
        w.onTransactionNode)).setStateNode w.stateNode) := by
  obtain ⟨new, logs⟩ := ran
  obtain ⟨stays, ok⟩ := logs.grounded.operate
  obtain ⟨heap, ends⟩ := (p.runtime level).final_operate trx w.stateNode w.heap.size w.onTransactionNode
  constructor
  · refine ⟨new, logs.reground busy rfl rfl ?_ ?_ stays⟩ <;> rw [ends]
  · refine ⟨new, logs.reground busy rfl rfl ?_ ?_ ok⟩ <;> rw [ends, World.setStateNode]

/-- The stack of privileged native code. -/
abbrev Privileged (stack : List StackFrame) : Prop := Framed stack ∧ Trusted stack

section Phases

variable (behaves : p.Behaves level) {stack : List StackFrame} (privileged : Privileged stack)

include behaves privileged

theorem run_checks (trx : Transaction) (busy : ¬ scope.calm) (bound : ¬ scope.free) (same : w.stack = stack) :
    p.Run (scope.under stack) w (final ((p.runtime level).checks trx (w.beginTransaction trx))) := by
  have begun : p.Run (scope.under stack) w (w.beginTransaction trx) := run_silent busy rfl rfl (.of_eq rfl rfl)
  have moves : Moves (p.Within scope Privileged) ((p.runtime level).checks trx) := by
    refine moves_checks (move_systemCalls behaves fun _ => id) lenient_within ?_ trx
    exact fun _ _ => moves_sys_trusted behaves (fun _ => id) fun free => absurd free bound
  exact begun.trans (run_of_moves moves same privileged)

/-- The operations phase, whether the transaction's node is left or not. -/
theorem run_operated (trx : Transaction) (busy : ¬ scope.calm) (same : w.stack = stack) :
    p.Run (scope.under stack) w
        (final ((p.runtime level).operate trx w.stateNode w.heap.size w.onTransactionNode)) ∧
      p.Run (scope.under stack) w ((final ((p.runtime level).operate trx w.stateNode w.heap.size
        w.onTransactionNode)).setStateNode w.stateNode) := by
  have moves : Moves (p.Within scope Privileged) ((p.runtime level).operations trx) :=
    moves_operations (move_systemCalls behaves fun _ => id) lenient_within trx
  have still : ¬ (scope.under stack).calm := busy
  exact run_operate still (run_of_moves moves same privileged)

/-- A transaction whose operations are over, up to the charge. -/
theorem run_finished (busy : ¬ scope.calm) {reverted : Option ChainException} (outer : List PayerSession)
    (same : w.stack = stack) (finished : (p.runtime level).Finished trx w reverted w') :
    p.Run (scope.under stack) w (chargeWorld outer w.stateNode w') := by
  have back := (run_operated behaves privileged trx busy same).2
  cases finished with
  | committed ran | reverted ran =>
    rw [ran] at back
    exact back.trans (run_silent busy rfl rfl (.of_eq rfl rfl))

/-- The charge of a transaction whose operations are over. -/
theorem run_charged (busy : ¬ scope.calm) {reverted : Option ChainException} {outer : List PayerSession}
    {payer : Bytes} {rc : UInt64} {outcome : EStateM.Result ChainException (World Host) Bool}
    (same : w.stack = stack) (finished : (p.runtime level).Finished trx w reverted w')
    (charged : (p.runtime level).calls.consumeAccountRc payer rc
      (chargeWorld outer w.stateNode w') = outcome) : p.Run (scope.under stack) w (final outcome) := by
  have operated := run_finished behaves privileged busy outer same finished
  have moves : Moves (p.Within scope Privileged) ((p.runtime level).calls.consumeAccountRc payer rc) :=
    moves_sys_trusted behaves (fun _ => id) fun _ => trivial
  rw [← charged]
  exact operated.trans (run_of_moves moves (operated.stack.trans same) privileged)

end Phases

/-- However a transaction inside a contract ends. -/
theorem run_transactionRun (behaves : p.Behaves level) (busy : ¬ scope.calm) (bound : ¬ scope.free)
    (framed : Framed w.stack) (direct : Direct .applyTransaction w.stack) {intent : Intent}
    {result : EStateM.Result ChainException (World Host) Unit}
    (ran : (p.runtime level).TransactionRun intent trx w result) : p.Run (scope.under w.stack) w (final result) := by
  have ended : ∀ {w' : World Host} (receipt : Receipt),
      p.Run (scope.under w.stack) w' ((w'.endTransaction w.outerSessions).setReceipt receipt) :=
    fun receipt => run_silent busy rfl rfl (.of_eq rfl rfl)
  have checks : w.getCallerPrivilege = .kernelMode → Privileged w.stack ∧
      p.Run (scope.under w.stack) w (final ((p.runtime level).checks trx (w.beginTransaction trx))) := by
    intro admitted
    have privileged : Privileged w.stack := ⟨framed, trusted_of_direct rfl direct admitted⟩
    exact ⟨privileged, run_checks behaves privileged trx busy bound rfl⟩
  cases ran with
  | refused denied => exact run_silent busy rfl rfl (.of_eq rfl rfl)
  | rejected admitted checked fatal =>
    obtain ⟨-, checks⟩ := checks admitted
    rw [checked] at checks
    exact checks.trans (ended _)
  | broken admitted checked ran | unlogged admitted checked ran =>
    obtain ⟨privileged, checks⟩ := checks admitted
    rw [checked] at checks
    have operated := (run_operated behaves privileged trx busy checks.stack).1
    rw [final, ran] at operated
    exact checks.trans (operated.trans (ended _))
  | abandoned admitted checked ran failure proposal =>
    obtain ⟨privileged, checks⟩ := checks admitted
    rw [checked] at checks
    have operated := (run_operated behaves privileged trx busy checks.stack).2
    rw [final, ran] at operated
    exact checks.trans (operated.trans (run_silent busy rfl rfl (.of_eq rfl rfl)))
  | charged admitted checked finished settles =>
    obtain ⟨privileged, checks⟩ := checks admitted
    rw [checked] at checks
    obtain ⟨receipt, ends, -⟩ := settles.final_eq
    rw [ends]
    exact checks.trans ((run_charged behaves privileged busy checks.stack finished rfl).trans (ended receipt))

/-- What is applied inside a contract lifts what is said about the state. -/
theorem run_applied (run : p.Run { scope with calm := False } (final (record .applied w)) w') : p.Run scope w w' := by
  obtain ⟨new, logs⟩ := run
  have noted : p.Logs { scope with calm := False } w [.applied] (final (record .applied w)) :=
    logs_record (by rintro _ ⟨⟩) (fun _ => trivial) trivial
  -- Applying a block or a transaction lifts what is known about the state.
  exact ⟨_, { noted.trans logs with isolated := fun _ calm => (calm .applied List.mem_cons_self).elim }⟩

theorem moves_applyTransaction (behaves : p.Behaves level) {pre : List StackFrame → Prop} (intent : Intent)
    (trx : Transaction) (bound : ¬ scope.free)
    (direct : ∀ stack, pre stack → Framed stack ∧ Direct .applyTransaction stack) :
    Moves (p.Within scope pre) (p.applyTransaction intent level trx) := by
  intro w holds
  have framed : Framed (final (record .applied w)).stack := (direct _ holds).1
  have direct : Direct .applyTransaction (final (record .applied w)).stack := (direct _ holds).2
  have busy : ¬ ({ scope with calm := False } : Scope).calm := id
  apply run_applied
  exact run_transactionRun behaves busy bound framed direct (transactionRun _ intent trx _)

end Transaction

section Block

variable {level : Level} {pre : List StackFrame → Prop}

/-- The head block is written on the current node. -/
theorem moves_putHeadBlock (busy : ¬ scope.calm) (rt : Runtime Host) (block : Block) :
    Moves (p.Within scope pre) (rt.putHeadBlock block) := by
  intro w _
  rw [putHeadBlock, get_bind]
  cases outcome : w.heap.putObject rt.codec w.stateNode rt.encoding.metadata (rt.objectKey "head_block")
      (rt.encoding.block block) with
  | error e => exact .refl w
  | ok written =>
    rw [Heap.putObject] at outcome
    split at outcome
    · contradiction
    cases outcome
    exact run_silent busy rfl rfl (.of_rewrites (w.heap.rewrites_put _ _) rfl)

theorem moves_generateBlockReceipt (busy : ¬ scope.calm) (rt : Runtime Host) (block : Block)
    (charged : ResourceMeter) : Moves (p.Within scope pre) (rt.generateBlockReceipt block charged) := by
  intro w _
  rw [generateBlockReceipt, get_bind]
  cases w.receipt with
  | none | transaction => exact .refl w
  | block receipt => exact run_silent busy rfl rfl (.of_eq rfl rfl)

/-- A transaction of a block that is applied inside a contract. -/
theorem moves_callApplyTransaction (behaves : p.Behaves level) (busy : ¬ scope.calm) (bound : ¬ scope.free)
    (intent : Intent) (trx : Transaction) :
    Moves (p.Within scope Privileged) ((p.runtime level).callApplyTransaction intent trx) := by
  have body : Moves (p.Within scope Privileged) (do
      if ← (p.runtime level).calls.enter (.applyTransaction trx) then
        (p.runtime level).applyTransaction intent trx) := by
    refine .bind ((move_systemCalls behaves fun _ => id).enter _) fun runs => ?_
    split
    case isFalse => exact .pure _
    intro w privileged
    exact run_transactionRun behaves busy bound privileged.1 (privileged.2.direct _) (transactionRun _ intent trx w)
  refine moves_withSystemCall body ?_
  rintro stack ⟨framed, trusted⟩ room
  exact ⟨framed.cons room _, trusted⟩

theorem moves_blockBody (behaves : p.Behaves level) (busy : ¬ scope.calm) (bound : ¬ scope.free) (intent : Intent)
    (block : Block) :
    Moves (Runtime.OnWorld (p.Within scope Privileged)) ((p.runtime level).blockBody intent block) := by
  have calls : (p.runtime level).calls.Move (p.Within scope Privileged) := move_systemCalls behaves fun _ => id
  refine .bind (moves_onWorld (moves_beforeTransactions calls lenient_within ?_ block ?_)) fun _ => ?_
  · exact fun w limits _ => run_silent busy rfl rfl (.of_eq rfl rfl)
  · exact moves_putHeadBlock busy _ block
  refine .bind (moves_applyTransactions (moves_callApplyTransaction behaves busy bound intent) _ _) fun _ => ?_
  refine .bind (moves_onWorld (moves_afterTransactions calls block)) fun charged => ?_
  exact moves_onWorld (moves_generateBlockReceipt busy _ block charged)

/-- `apply_block` insists on kernel mode. -/
theorem moves_admitBlock {next : Unit → BlockM Host Unit} (intent : Intent)
    (direct : ∀ stack, pre stack → Framed stack ∧ Direct .applyBlock stack)
    (rest : Moves (Runtime.OnWorld (p.Within scope Privileged)) (next ())) :
    Moves (Runtime.OnWorld (p.Within scope pre)) (admitBlock intent >>= next) := by
  intro ctx holds
  rcases admitBlock_cases intent ctx with ⟨e, err⟩ | ⟨ok, kernel⟩
  · rw [bind_of_error err]
    exact .refl ctx.world
  · rw [bind_of_ok ok]
    exact rest ctx ⟨(direct _ holds).1, trusted_of_direct rfl (direct _ holds).2 kernel⟩

/-- What `apply_block` does to the world, without its note in the journal. -/
theorem moves_blockOf (behaves : p.Behaves level) (busy : ¬ scope.calm) (bound : ¬ scope.free) (intent : Intent)
    (block : Block) (direct : ∀ stack, pre stack → Framed stack ∧ Direct .applyBlock stack) :
    Moves (Runtime.OnWorld (p.Within scope pre)) ((p.runtime level).applyBlock intent block) := by
  have silent : ∀ {pre : List StackFrame → Prop} (f : World Host → World Host), (∀ w, (f w).stack = w.stack) →
      (∀ w, (f w).rest = w.rest) → (∀ w, Grounded w (f w)) →
      Moves (Runtime.OnWorld (p.Within scope pre)) (BlockContext.onWorld (modify f)) := by
    intro pre f stack rest grounded
    refine moves_onWorld (.modify fun w _ => run_silent busy (stack w) ?_ (grounded w))
    rw [rest]
  refine .bind (silent _ (fun _ => rfl) (fun _ => rfl) fun _ => .of_eq rfl rfl) fun _ => ?_
  refine .tryCatch (moves_admitBlock intent direct ?_) fun e => ?_
  · refine .bind (silent _ (fun _ => rfl) (fun _ => rfl) fun _ => .of_eq rfl rfl) fun _ => ?_
    refine .within (moves_blockBody behaves busy bound intent block) fun ctx ctx' moved holds => ?_
    exact (moved holds).trans (run_silent busy rfl rfl (.of_eq rfl rfl))
  · refine .get_bind fun ctx => ?_
    exact .bind (moves_onWorld (moves_generateBlockReceipt busy _ block _)) fun _ => .throw e

theorem moves_applyBlock (behaves : p.Behaves level) (intent : Intent) (block : Block) (bound : ¬ scope.free)
    (direct : ∀ stack, pre stack → Framed stack ∧ Direct .applyBlock stack) :
    Moves (p.Within scope pre) (p.applyBlock intent level block) := by
  intro w holds
  have busy : ¬ ({ scope with calm := False } : Scope).calm := id
  apply run_applied
  have moves := moves_blockOf behaves busy bound intent block direct
    ⟨final (record .applied w), (final (record .applied w)).rest.failedTransactionIndices⟩ holds
  have noted : record .applied w = .ok () (final (record .applied w)) := rfl
  rw [applyBlock, bind_of_ok noted, final_within]
  exact moves.trans (run_silent busy rfl rfl (.of_eq rfl rfl))

end Block

end Platform

end Teleno.Chain
