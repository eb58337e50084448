import Teleno.Chain.NestedRuns

/-! # Every level behaves

The thunks keep to the rules of the journal over a level that does, and so do the system calls and the host of
the level above. A contract calls the host under its own frame: a system call puts its frame on top, so that
the contract is the caller, and `invoke_thunk` is open to contracts in kernel mode only. By induction, all
levels behave.
-/

namespace Teleno.Chain

open Library StateDb Exec

namespace Platform

open Incident

variable {p : Platform} {scope : Scope} {pre : List StackFrame → Prop} {level : Level}

/-- The stack under which a thunk runs. -/
abbrev Entered (id : SystemCallId) (stack : List StackFrame) : Prop := Framed stack ∧ Direct id stack

section Thunks

variable (behaves : p.Behaves level) (intent : Intent)

include behaves

/-- Every thunk keeps to the rules. -/
theorem moves_thunk (id : SystemCallId) (args : id.Args) (free : scope.free → p.NonceFree id args) :
    Moves (p.Within scope (Entered id)) (p.thunk intent level id args) := by
  have framed : ∀ stack, Entered id stack → Framed stack := fun _ => And.left
  have direct : ∀ stack, Entered id stack → Framed stack ∧ Direct id stack := fun _ entered => entered
  cases id with
  | getHeadInfo => exact moves_getHeadInfo behaves framed
  | applyBlock => exact moves_applyBlock behaves intent args free direct
  | applyTransaction => exact moves_applyTransaction behaves intent args free direct
  | applyUploadContractOperation => exact moves_applyUploadContractOperation behaves intent args direct
  | applyCallContractOperation => exact moves_applyCallContractOperation behaves framed intent args
  | applySetSystemCallOperation => exact moves_applySetSystemCallOperation behaves intent args direct
  | applySetSystemContractOperation => exact moves_applySetSystemContractOperation behaves intent args direct
  | preBlockCallback | postBlockCallback | preTransactionCallback | postTransactionCallback | nop => exact .pure _
  | getChainId => exact moves_getChainId behaves framed
  | processBlockSignature =>
    refine .bind (moves_metadataObject behaves framed _) fun _ => ?_
    exact .bind (moves_signer behaves framed _ _) fun _ => .pure _
  | getTransaction | getBlock | getOperation => exact moves_current _ _
  | getTransactionField => exact moves_getTransactionField args
  | getBlockField => exact moves_getBlockField args
  | getLastIrreversibleBlock => exact .get_bind fun _ => .pure _
  | getAccountNonce => exact moves_getAccountNonce behaves framed args
  | verifyAccountNonce => exact moves_verifyAccountNonce behaves framed _ _
  | setAccountNonce => exact moves_setAccountNonce behaves _ _ free direct
  | checkSystemAuthority => exact moves_checkSystemAuthority behaves framed
  | getAccountRc => exact moves_getAccountRc behaves framed
  | consumeAccountRc | consumeBlockResources => exact .pure _
  | getResourceLimits => exact moves_getResourceLimits behaves framed
  | putObject =>
    obtain ⟨space, key, obj⟩ := args
    exact moves_putObject intent (fun _ => And.right) free
  | removeObject =>
    obtain ⟨space, key⟩ := args
    exact moves_removeObject intent (fun _ => And.right) free
  | getObject => exact moves_getObject
  | getNextObject => exact moves_getNeighbour fun h q => h.getNextObject p.codec q
  | getPrevObject => exact moves_getNeighbour fun h q => h.getPrevObject p.codec q
  | log => exact Runtime.moves_log lenient_within args
  | event => exact moves_event _ _ _
  | hash => exact moves_hashThunk _ _ _
  | recoverPublicKey => exact moves_recoverPublicKey _ _ _ _
  | verifyMerkleRoot => exact moves_verifyMerkleRoot _ _
  | verifySignature =>
      exact .bind (.require _ _) fun _ => .bind (moves_sys behaves framed rfl) fun _ => .pure _
  | verifyVrfProof =>
      exact .bind (.require _ _) fun _ => .bind (.ofExcept _) fun _ => .bind (.ofExcept _) fun _ => .pure _
  | call => exact moves_call behaves framed _ _ _
  | exit => exact moves_exit _ _
  | getArguments => exact .bind (moves_current _ _) fun _ => .pure _
  | getContractId => exact .get_bind fun _ => .pure _
  | getCaller => exact moves_getCaller framed
  | checkAuthority => exact moves_checkAuthority behaves framed intent _ _

end Thunks

section Calls

variable {α : Type}

theorem Within.of_pre {pre' : List StackFrame → Prop} {program : HostM α} (moves : Moves (p.Within scope pre) program)
    (enter : ∀ stack, pre' stack → pre stack) : Moves (p.Within scope pre') program :=
  moves.mono fun w _ within holds => within (enter w.stack holds)

theorem moves_callback (id : SystemCallId) : Moves (p.Within scope pre) (callback id) := by
  apply Moves.of_final
  intro w
  cases id <;> rfl

variable (behaves : p.Behaves level) (intent : Intent)

include behaves

theorem moves_callTyped (id target : SystemCallId) (args : id.Args) (free : scope.free → p.NonceFree id args) :
    Moves (p.Within scope (Entered id)) (callTyped (p.thunk intent level) id target args) := by
  rw [callTyped]
  split
  · exact moves_thunk behaves intent id args free
  split
  · exact moves_callback id
  · exact .throw _

theorem moves_dispatch (id : SystemCallId) (args : id.Args) (free : scope.free → p.NonceFree id args)
    (target : CallTarget) (overridden : scope.strict → ∃ thunkId isOverride, target = .thunk thunkId isOverride) :
    Moves (p.Within scope (Entered id)) (p.dispatch level (p.thunk intent level) id args target) := by
  cases target with
  | contract contractId bytecode entryPoint metadata =>
    have lifted : ¬ scope.strict := by
      intro strict
      obtain ⟨_, _, ⟨⟩⟩ := overridden strict
    refine .bind (moves_runOverride behaves _ _ _ _ _ (fun _ => And.left) lifted) fun result => ?_
    refine .bind (.of_final (final_requireSuccess result)) fun _ => ?_
    split
    · exact .throw _
    · exact .pure _
  | thunk thunkId isOverride =>
    refine .bind (.ofExcept _) fun number => ?_
    cases p.ofNumber number with
    | none => exact .throw _
    | some target => exact .bind (moves_charge _ _) fun _ => moves_callTyped behaves intent id target args free

theorem moves_systemCall (id : SystemCallId) (args : id.Args) (free : scope.free → p.NonceFree id args) :
    Moves (p.Within scope fun stack => Framed stack ∧ Direct id (.systemCall :: stack))
      (p.systemCall level (p.thunk intent level) id args) := by
  refine moves_withSystemCall (moves_resolved _ ?_ ?_ : Moves (p.Within scope (Entered id)) _) ?_
  · intro strict contractId bytecode entryPoint metadata overridden
    have free' : ({ scope with strict := strict } : Scope).free → p.NonceFree id args := free
    exact moves_dispatch behaves intent id args free' _ fun holds => absurd holds overridden
  · intro thunkId isOverride
    exact moves_dispatch behaves intent id args free _ fun _ => ⟨_, _, rfl⟩
  · rintro stack ⟨framed, direct⟩ room
    exact ⟨framed.cons room _, direct⟩

/-- A system call that is not overridden reads the object of the current node. -/
theorem read_systemCall {space : ObjectSpace} {key : Bytes} {w w' : World Host} {value : Option Bytes}
    {new : List Incident} (framed : Framed w.stack)
    (ok : p.systemCall level (p.thunk intent level) .getObject (space, key) w = .ok value w')
    (journal : w'.rest.journal = w.rest.journal ++ new) (plain : ∀ r ∈ new, r.Plain) :
    value = w'.heap.getObject p.codec w'.stateNode space key := by
  obtain ⟨room, t, ran, rfl⟩ := World.withStackFrame_eq_ok ok
  obtain ⟨target, w₂, resolved, dispatched⟩ := bind_eq_ok ran
  have entered : Entered .getObject (.systemCall :: w.stack) := ⟨framed.cons room _, by rintro ⟨⟩⟩
  rcases resolve_cases { strict := False } (p.number .getObject) { w with stack := .systemCall :: w.stack } with
    ⟨e, err⟩ | ⟨target', w₂', returned, logs⟩
  · rw [resolved] at err
    contradiction
  rw [resolved] at returned
  cases returned
  have moves : Moves (p.Within { strict := False } (Entered .getObject))
      (p.dispatch level (p.thunk intent level) .getObject (space, key) target) :=
    moves_dispatch behaves intent .getObject (space, key) (fun _ => trivial) target False.elim
  obtain ⟨new', logs'⟩ := moves w₂ (logs.stack ▸ entered)
  rw [dispatched] at logs'
  have mem : .resolved (p.number .getObject) target ∈ new := by
    have whole : w.rest.journal ++ new = w.rest.journal ++ (.resolved (p.number .getObject) target :: new') := by
      rw [← journal]
      exact logs'.journal.trans (by rw [logs.journal, List.append_assoc]; rfl)
    rw [List.append_cancel_left whole]
    exact List.mem_cons_self
  have thunk : target = .thunk (p.number .getObject) false := plain _ mem
  rw [thunk, dispatch, p.thunkTranslation_number rfl] at dispatched
  obtain ⟨number, _, ⟨⟩, called⟩ := bind_eq_ok dispatched
  rw [p.ofNumber_number] at called
  obtain ⟨_, w₃, charged, read⟩ := bind_eq_ok called
  rw [callTyped, if_pos rfl] at read
  have thunked : p.getObject space key w₃ = .ok value t := read
  have found : value = t.heap.getObject p.codec t.stateNode space key := getObject_eq_ok thunked
  exact found

theorem moves_callThunk (id : SystemCallId) (retLen : ℕ) (args : Bytes) (bound : ¬ scope.free) :
    Moves (p.Within scope (Entered id)) (p.callThunk (p.thunk intent level) id retLen args) := by
  refine .bind (moves_charge _ _) fun _ => ?_
  refine .bind (moves_thunk behaves intent id _ fun free => absurd free bound) fun result => ?_
  exact .bind (.require _ _) fun _ => .pure _

/-- The contract that calls is the one that asks. -/
theorem moves_hostCall (sid : UInt32) (retLen : ℕ) (args : Bytes) (bound : ¬ scope.free) :
    Moves (p.Within scope Hosted) (p.hostCall level (p.thunk intent level) sid retLen args) := by
  refine moves_withSystemCall (moves_resolved _ ?_ ?_ : Moves (p.Within scope fun stack => ∀ id, Entered id stack) _) ?_
  · intro strict contractId bytecode entryPoint metadata overridden
    refine .bind (moves_runOverride behaves _ _ _ _ _ (fun _ entered => (entered .nop).1) overridden) fun result => ?_
    exact .bind (.require _ _) fun _ => .pure _
  · intro thunkId isOverride
    refine .bind (.ofExcept _) fun number => ?_
    cases p.ofNumber number with
    | none => exact .throw _
    | some target =>
      refine .bind (moves_charge _ _) fun _ => ?_
      exact Within.of_pre (moves_callThunk behaves intent target retLen args bound) fun _ entered => entered target
  · rintro stack ⟨framed, frame, below, rfl, contract⟩ room id
    refine ⟨framed.cons room _, fun _ frame' asks _ => ?_⟩
    rw [requester_systemCall, requester_of_contract contract] at asks
    exact asks

omit behaves in
theorem moves_caught {rel : World Host → World Host → Prop} [IsPreorder (World Host) rel] {program : HostM Bytes}
    (moves : Moves rel program) : Moves rel (caught program) := by
  refine .bind (.attempt moves) fun outcome => ?_
  cases outcome with
  | ok bytes => exact .pure _
  | error e =>
    dsimp only
    split
    · exact .pure _
    · exact .throw _

omit behaves in
theorem moves_answer {rel : World Host → World Host → Prop} [IsPreorder (World Host) rel] (isExit : Bool) (retLen : ℕ)
    (outcome : Except ChainException Bytes) : Moves rel (p.answer isExit retLen outcome) := by
  apply Moves.of_final
  intro w
  cases outcome with
  | ok bytes => cases isExit <;> rfl
  | error e =>
    rw [answer]
    repeat' split
    all_goals rfl

theorem moves_invokeSystemCall (sid : UInt32) (retLen : ℕ) (args : Bytes) (bound : ¬ scope.free) :
    Moves (p.Within scope Hosted) (p.invokeSystemCall level (p.thunk intent level) sid retLen args) := by
  refine .bind (moves_caught (moves_hostCall behaves intent sid retLen args bound)) fun outcome => ?_
  have privilege : Moves (p.Within scope Hosted) World.getPrivilege := by
    refine .get_bind fun w => ?_
    cases w.stack with
    | nil => exact .throw _
    | cons frame below => exact .pure _
  have answered : ∀ isExit outcome, Moves (p.Within scope Hosted) (p.answer isExit retLen outcome) :=
    fun isExit outcome => moves_answer isExit retLen outcome
  refine .bind privilege fun privilege => ?_
  cases outcome with
  | ok bytes => exact answered _ (.ok bytes)
  | error e => exact .bind (.require _ _) fun _ => answered _ (.error e)

/-- Only contracts in kernel mode call thunks directly. -/
theorem moves_invokeThunk (tid : UInt32) (retLen : ℕ) (args : Bytes) (bound : ¬ scope.free) :
    Moves (p.Within scope Hosted) (p.invokeThunk (p.thunk intent level) tid retLen args) := by
  rintro w ⟨framed, frame, below, stack, contract⟩
  have ok : World.getPrivilege w = .ok frame.callPrivilege w := by
    rw [World.getPrivilege, get_bind, stack]
    rfl
  rw [invokeThunk, bind_of_ok ok]
  refine keeps_bind (p.Run _ w) (by rw [final_require]; exact .refl w) fun _ w' required _ => ?_
  obtain ⟨kernel, rfl⟩ := require_eq_ok_iff.mp required
  have privileged : Privileged w.stack := by
    refine ⟨framed, fun frame' asks => ?_⟩
    rw [stack, requester_of_contract contract] at asks
    cases asks
    exact of_decide_eq_true kernel
  refine (.bind (moves_caught ?_) fun outcome => moves_answer _ _ outcome : Moves (p.Within scope Privileged) _)
    w privileged
  cases p.ofNumber tid with
  | none => exact .throw _
  | some id =>
    exact Within.of_pre (moves_callThunk behaves intent id retLen args bound)
      fun _ privileged => ⟨privileged.1, privileged.2.direct id⟩

omit behaves in
theorem moves_useMeterTicks (ticks : UInt64) : Moves (p.Within scope pre) (useMeterTicks ticks) := by
  refine .get_bind fun w => ?_
  dsimp only
  split
  · refine .bind (moves_charges (.useComputeBandwidth _)) fun _ => ?_
    exact .bind (moves_charges (.useComputeBandwidth _)) fun _ => .pure _
  · exact .bind (moves_charges (.useComputeBandwidth _)) fun _ => .pure _

theorem moves_host (call : HostCall) : Moves (p.Within scope Hosted) (p.host level (p.thunk intent level) call) := by
  intro w hosted
  have asked : Asked w.stack := by
    obtain ⟨-, frame, below, stack, contract⟩ := hosted
    rw [Asked, stack, requester_of_contract contract]
    rfl
  -- What a contract asks for is free already.
  suffices run : p.Run ({ scope with free := False }.under w.stack) w _ from run.mono id id fun _ => .inl asked
  have bound : ¬ ({ scope with free := False } : Scope).free := id
  cases call with
  | invokeThunk tid retLen args => exact moves_invokeThunk behaves intent tid retLen args bound w hosted
  | invokeSystemCall sid retLen args => exact moves_invokeSystemCall behaves intent sid retLen args bound w hosted
  | getMeterTicks => exact .refl w
  | useMeterTicks ticks => exact moves_useMeterTicks ticks w hosted

theorem Behaves.next : p.Behaves (p.next intent level) where
  sys _ id args free := moves_systemCall behaves intent id args free
  host _ call := moves_host behaves intent call
  read _ _ _ _ _ _ framed reads journal plain := read_systemCall behaves intent framed reads journal plain

omit behaves in
/-- System calls and contracts of any depth keep to the rules. -/
theorem behaves_levels (p : Platform) (intent : Intent) (n : ℕ) : p.Behaves (p.levels intent n) := by
  induction n with
  | zero =>
    refine ⟨fun _ _ _ _ => .throw _, fun _ _ => .throw _, ?_⟩
    intro space key w value w' new framed reads
    cases reads
  | succ n ih => exact ih.next intent

end Calls

section Chain

variable (p) (scope) (intent : Intent)

/-- What the checks of a transaction do. -/
theorem chain_checks (bound : ¬ scope.free) (trx : Transaction) :
    Moves (p.Within scope Privileged) ((p.chain intent).checks trx) := by
  have behaves := behaves_levels p intent World.stackLimit
  refine Runtime.moves_checks (move_systemCalls behaves fun _ => id) lenient_within (fun _ _ => ?_) trx
  exact moves_sys_trusted behaves (fun _ => id) fun free => absurd free bound

/-- What the operations of a transaction do. -/
theorem chain_operations (trx : Transaction) : Moves (p.Within scope Privileged) ((p.chain intent).operations trx) :=
  Runtime.moves_operations (move_systemCalls (behaves_levels p intent _) fun _ => id) lenient_within trx

/-- What the charge of a payer does. -/
theorem chain_consumeAccountRc (payer : Bytes) (rc : UInt64) :
    Moves (p.Within scope Privileged) ((p.chain intent).calls.consumeAccountRc payer rc) :=
  (move_systemCalls (behaves_levels p intent _) fun _ => id).consumeAccountRc payer rc

end Chain

section Confined

/-- The caches hold what the parent node says, and it overrides no system call. -/
structure Unoverridden (p : Platform) (w : World Host) : Prop where
  below : w.getParentNode < w.stateNode
  cached : p.Cached (p.parentObjects w) w.rest
  dispatch : ∀ key, p.parentObjects w .systemCallDispatch key = none

/-- The stack is as before, and without overrides every contract kept to its own space and privilege. -/
def Confined (p : Platform) (w w' : World Host) : Prop :=
  w'.stack = w.stack ∧ ∃ new, w'.rest.journal = w.rest.journal ++ new ∧
    ((∀ r ∈ new, r.Plain) ∨ p.Unoverridden w ∧ (∀ r ∈ new, r.Calm) → ∀ r ∈ new, p.Rightful r)

/-- A resolution by objects without overrides is plain. -/
theorem plain_of_faithful {objects : SystemSpace → Bytes → Option Bytes} {r : Incident}
    (dispatch : ∀ key, objects .systemCallDispatch key = none) (faithful : p.Faithful objects r) : r.Plain := by
  cases r with
  | resolved sid target =>
    rw [Faithful, lookupTarget, dispatch] at faithful
    exact (Except.ok.inj faithful).symm
  | priced | wrote | ran | applied => trivial

theorem Run.confined {w w' : World Host} (run : p.Run {} w w') : p.Confined w w' := by
  obtain ⟨new, logs⟩ := run
  refine ⟨logs.stack, new, logs.journal, ?_⟩
  rintro (plain | ⟨unoverridden, calm⟩)
  · exact logs.rightful trivial plain
  · obtain ⟨-, faithful⟩ := (logs.isolated trivial calm).cached unoverridden.below unoverridden.cached
    exact logs.rightful trivial fun r mem => plain_of_faithful unoverridden.dispatch (faithful r mem)

/-- Whatever contracts do, a host call returns to the same stack. Unless a system call is overridden, what a
contract in user mode asks to write is in its own space, and the contracts that run in kernel mode are system
contracts by their stored metadata. The same holds for what native code asks for. -/
theorem confined_levels (p : Platform) (intent : Intent) (n : ℕ) (w : World Host) :
    (Hosted w.stack → ∀ call, p.Confined w (final ((p.levels intent n).host call w))) ∧
      (Framed w.stack → Trusted w.stack → ∀ id args,
        p.Confined w (final ((p.levels intent n).sys id args w))) := by
  have behaves := behaves_levels p intent n
  constructor
  · intro hosted call
    have run := behaves.host {} call w hosted
    exact (run.mono id id False.elim : p.Run {} w _).confined
  · intro framed trusted sid args
    have moves : Moves (p.Within {} Privileged) ((p.levels intent n).sys sid args) :=
      moves_sys_trusted behaves (fun _ => id) False.elim
    have run := moves w ⟨framed, trusted⟩
    exact (run.mono id id False.elim : p.Run {} w _).confined

/-- A contract in user mode that is about to write an object of its own space. -/
def storingContract : World Host where
  heap := transparentHeap []
  stateNode := 1
  parentNode := some 0
  stack := [⟨.userMode, some ⟨[7], [], 0⟩⟩, .systemCall]
  rest := {}

def storingPlatform : Platform :=
  .transparent {} (fun id _ => if same : id = .putObject then same ▸ ({ zone := [7] }, [], [1, 2]) else emptyArgs id)
    fun _ _ => .done none

/-- The contract's host call writes to its own space and comes back to the same stack. -/
theorem confined_levels_storing :
    let after := final ((storingPlatform.levels .blockApplication 3).host
      (.invokeSystemCall (storingPlatform.number .putObject) 0 []) storingContract)
    storingPlatform.Confined storingContract after ∧
      after.heap.getObject storingPlatform.codec 1 { zone := [7] } [] = some [1, 2] := by
  refine ⟨(confined_levels storingPlatform .blockApplication 3 storingContract).1 ?_ _, by decide +kernel⟩
  exact ⟨⟨by decide, by decide⟩, _, _, rfl, rfl⟩

end Confined

end Platform

end Teleno.Chain
