import Teleno.Chain.CallSequences
import Teleno.Chain.HostSteps

/-! # Confinement

Every thunk stays within the rules of the journal if the system calls and the host below it do. By induction
on the levels, so do all system calls and all contracts. The thunks that write for the system insist on
kernel mode, and since a contract in user mode can only reach them directly, no such contract is behind what
they write.
-/

namespace Teleno.Chain

open Library StateDb Exec

namespace Platform

open Incident

variable {p : Platform} {scope : Scope} {pre : List StackFrame → Prop}

/-- What thunks rely on: system calls and the host stay within the rules, and reading an object that no
contract overrides gives the object of the current node. -/
structure Behaves (p : Platform) (level : Level) : Prop where
  sys : ∀ scope id args, (scope.free → p.NonceFree id args) →
    Moves (p.Within scope fun stack => Framed stack ∧ Direct id (.systemCall :: stack)) (level.sys id args)
  host : ∀ scope call, Moves (p.Within scope Hosted) (level.host call)
  read : ∀ space key w value w' new, Framed w.stack → level.sys .getObject (space, key) w = .ok value w' →
    w'.rest.journal = w.rest.journal ++ new → (∀ r ∈ new, r.Plain) →
    value = w'.heap.getObject p.codec w'.stateNode space key

section Thunks

variable {level : Level} (behaves : p.Behaves level)

variable {id : SystemCallId} {α : Type} {w : World Host}

theorem nonceFree_of_unguarded (unguarded : id.isGuarded = false) (args : id.Args) : p.NonceFree id args := by
  cases id <;> trivial

include behaves

/-- A system call that is not guarded. -/
theorem moves_sys {args : id.Args} (framed : ∀ stack, pre stack → Framed stack)
    (unguarded : id.isGuarded = false) : Moves (p.Within scope pre) (level.sys id args) := by
  refine (behaves.sys scope id args fun _ => nonceFree_of_unguarded unguarded args).mono fun w w' within holds => ?_
  refine within ⟨framed _ holds, ?_⟩
  intro guarded
  rw [unguarded] at guarded
  contradiction

/-- A system call that no contract in user mode asks for. -/
theorem moves_sys_trusted {args : id.Args} (framed : ∀ stack, pre stack → Framed stack ∧ Trusted stack)
    (free : scope.free → p.NonceFree id args) : Moves (p.Within scope pre) (level.sys id args) := by
  refine (behaves.sys scope id args free).mono fun w w' within holds => ?_
  have trusted : Trusted (.systemCall :: w.stack) := (framed _ holds).2
  exact within ⟨(framed _ holds).1, trusted.direct id⟩

variable (framed : ∀ stack, pre stack → Framed stack)

include framed

theorem moves_metadataObject (name : String) : Moves (p.Within scope pre) (p.metadataObject level name) :=
  moves_sys behaves framed rfl

theorem moves_getHeadInfo : Moves (p.Within scope pre) (p.getHeadInfo level) := by
  refine .get_bind fun w => ?_
  refine .bind (moves_sys behaves framed rfl) fun irreversible => ?_
  refine .get_bind fun w' => ?_
  cases w'.block with
  | some block => exact .pure _
  | none =>
    refine .bind (moves_metadataObject behaves framed _) fun head => ?_
    cases head with
    | none => exact .pure _
    | some bytes => exact .bind (.ofExcept _) fun _ => .pure _

theorem moves_getChainId : Moves (p.Within scope pre) (p.getChainId level) :=
  .bind (moves_metadataObject behaves framed _) fun _ => .pure _

theorem moves_signer (signature digest : Bytes) : Moves (p.Within scope pre) (p.signer level signature digest) :=
  .bind (moves_sys behaves framed rfl) fun _ => .ofExcept _

theorem moves_getAccountNonce (account : Bytes) : Moves (p.Within scope pre) (p.getAccountNonce level account) :=
  .bind (moves_sys behaves framed rfl) fun _ => .pure _

omit behaves framed in
theorem moves_requireNumber (nonce account : Bytes) (subject : String) :
    Moves (p.Within scope pre) (p.requireNumber nonce account subject) := by
  refine .bind (.ofExcept _) fun number => ?_
  cases number with
  | some number => exact .pure _
  | none => exact .throw _

theorem moves_verifyAccountNonce (account nonce : Bytes) :
    Moves (p.Within scope pre) (p.verifyAccountNonce level account nonce) := by
  refine .bind (moves_requireNumber _ _ _) fun number => ?_
  refine .bind (moves_sys behaves framed rfl) fun stored => ?_
  refine .bind (moves_requireNumber _ _ _) fun current => ?_
  refine .get_bind fun w => ?_
  cases w.mempoolNonce with
  | some bytes => exact .bind (.ofExcept _) fun _ => .pure _
  | none => exact .pure _

omit behaves framed in
theorem moves_current (part : World Host → Option α) (e : ChainException) :
    Moves (p.Within scope pre) (current part e) := by
  refine .get_bind fun w => ?_
  cases part w with
  | some a => exact .pure _
  | none => exact .throw _

theorem moves_signedBy (address digest : Bytes) (signatures : List Bytes) :
    Moves (p.Within scope pre) (p.signedBy level address digest signatures) := by
  induction signatures with
  | nil => exact .pure _
  | cons signature rest ih =>
    refine .bind (moves_signer behaves framed _ _) fun recovered => ?_
    split
    · exact .pure _
    · exact ih

theorem moves_checkSystemAuthority : Moves (p.Within scope pre) (p.checkSystemAuthority level) := by
  refine .bind (moves_metadataObject behaves framed _) fun _ => ?_
  refine .bind (moves_current _ _) fun trx => ?_
  exact moves_signedBy behaves framed _ _ _

omit behaves framed in
theorem moves_requireObject (object : Option Bytes) (e : ChainException) :
    Moves (p.Within scope pre) (requireObject object e) := by
  cases object with
  | some bytes => exact .pure _
  | none => exact .throw _

theorem moves_getAccountRc : Moves (p.Within scope pre) (p.getAccountRc level) := by
  refine .bind (moves_metadataObject behaves framed _) fun _ => ?_
  exact .bind (moves_requireObject _ _) fun _ => .ofExcept _

theorem moves_getResourceLimits : Moves (p.Within scope pre) (p.getResourceLimits level) := by
  refine .bind (moves_metadataObject behaves framed _) fun _ => ?_
  exact .bind (moves_requireObject _ _) fun _ => .ofExcept _

theorem moves_requireSystemAuthority : Moves (p.Within scope pre) (requireSystemAuthority level) :=
  .bind (moves_sys behaves framed rfl) fun _ => .require _ _

theorem moves_checkTarget (callId : UInt32) (target : SystemCallTarget) :
    Moves (p.Within scope pre) (p.checkTarget level callId target) := by
  cases target with
  | thunk thunkId => exact .require _ _
  | systemCallBundle contractId entryPoint =>
    refine .bind (moves_sys behaves framed rfl) fun bytecode => ?_
    refine .bind (.ignore (moves_requireObject _ _)) fun _ => ?_
    refine .bind (moves_sys behaves framed rfl) fun stored => ?_
    refine .bind (moves_requireObject _ _) fun stored => ?_
    refine .bind (.ofExcept _) fun metadata => ?_
    exact .bind (.require _ _) fun _ => .require _ _

omit behaves framed

theorem moves_getTransactionField (field : Bytes) : Moves (p.Within scope pre) (p.getTransactionField field) := by
  refine .bind (moves_current _ _) fun trx => ?_
  exact .bind moves_descriptorPool fun _ => .ofExcept _

theorem moves_getBlockField (field : Bytes) : Moves (p.Within scope pre) (p.getBlockField field) := by
  refine .bind (moves_current _ _) fun block => ?_
  exact .bind moves_descriptorPool fun _ => .ofExcept _

theorem moves_event (name data : Bytes) (impacted : List Bytes) :
    Moves (p.Within scope pre) (p.event name data impacted) := by
  refine .bind (.require _ _) fun _ => ?_
  refine .bind (.require _ _) fun _ => ?_
  refine .bind (.require _ _) fun _ => ?_
  refine .bind (moves_charge _ _) fun _ => ?_
  exact .get_bind fun w => moves_charges (.pushEvent _)

theorem moves_hashFunction (code : ℕ) : Moves (p.Within scope pre) (p.hashFunction code) := by
  rw [hashFunction]
  cases p.hashName code with
  | some name => exact .pure _
  | none => exact .throw _

theorem moves_hashThunk (code : ℕ) (obj : Bytes) (size : ℕ) :
    Moves (p.Within scope pre) (p.hashThunk code obj size) := by
  refine .bind (moves_hashFunction code) fun name => ?_
  refine .bind (moves_getComputeBandwidth _) fun base => ?_
  refine .bind (moves_getComputeBandwidth _) fun perByte => ?_
  exact .bind (moves_charges (.useComputeBandwidth _)) fun _ => .ofExcept _

theorem moves_recoverPublicKey (type : Dsa) (signature digest : Bytes) (compressed : Bool) :
    Moves (p.Within scope pre) (p.recoverPublicKey type signature digest compressed) := by
  refine .bind (.require _ _) fun _ => ?_
  refine .bind (.require _ _) fun _ => ?_
  refine .bind (.require _ _) fun _ => ?_
  refine .bind (.ofExcept _) fun key => ?_
  cases key with
  | some key => exact .pure _
  | none => exact .throw _

theorem moves_verifyMerkleRoot (root : Bytes) (hashes : List Bytes) :
    Moves (p.Within scope pre) (p.verifyMerkleRoot root hashes) := by
  refine .bind (moves_getComputeBandwidth _) fun base => ?_
  refine .bind (moves_getComputeBandwidth _) fun perByte => ?_
  refine .bind (moves_charges (.useComputeBandwidth _)) fun _ => ?_
  refine .bind (.ofExcept _) fun rootHash => ?_
  refine .bind (moves_hashFunction _) fun name => ?_
  refine .bind (moves_getComputeBandwidth _) fun hashBase => ?_
  refine .bind (moves_getComputeBandwidth _) fun hashPerByte => ?_
  refine .bind (moves_charges (.useComputeBandwidth _)) fun _ => ?_
  exact .bind (.ofExcept _) fun _ => .pure _

theorem final_requireSuccess (result : ExecutionResult) (w : World Host) : final (requireSuccess result w) = w := by
  rw [requireSuccess]
  split
  · rfl
  split <;> rfl

theorem moves_exit (code : ℤ) (res : ResultValue) : Moves (p.Within scope pre) (p.exit code res) := by
  refine .bind (.modify fun w _ => ⟨[], ((Still.refl w).setRest _).logs rfl ?_⟩) fun _ => ?_
  · exact fun sound => ⟨sound.target, sound.registry⟩
  · split
    · exact .throw _
    · cases res with
      | unset | object => exact .throw _
      | error data =>
        dsimp only
        split <;> exact .throw _

theorem final_untilExit (body : HostM Unit) (w : World Host) : final (untilExit body w) = final (body w) := by
  refine final_tryCatch id fun e w' => ?_
  cases e.type <;> rfl

/-- A contract does nothing but what the host does for it. -/
theorem moves_runContract {rel : World Host → World Host → Prop} [IsPreorder (World Host) rel]
    {host : HostCall → HostM Reply} (moves : ∀ call, Moves rel (host call)) (contract : Contract) :
    Moves rel (runContract host contract) := by
  induction contract with
  | done outcome =>
    cases outcome with
    | none => exact .pure _
    | some e => exact .throw _
  | host call next unwind ihNext ihUnwind =>
    rw [runContract]
    refine .bind (.attempt (moves call)) fun outcome => ?_
    cases outcome with
    | ok reply => exact ihNext reply
    | error e => exact ihUnwind e

include behaves

/-- A contract in a frame of its own, whose metadata are the stored ones unless there is an override. -/
theorem run_runInFrame {frame : StackFrame} {bytecode hash : Bytes} (framed : Framed w.stack)
    (contract : frame.contract.isSome) (rightful : scope.strict →
      p.Rightful (.ran frame (p.objectsAt (w.heap.find w.stateNode) .contractMetadata frame.contractId))) :
    p.Run scope w (final (p.runInFrame level frame bytecode hash w)) := by
  rw [runInFrame, final_untilExit]
  apply run_withStackFrame
  intro room
  rw [get_bind]
  have hosted : Hosted (frame :: w.stack) := ⟨framed.cons room frame, frame, w.stack, rfl, contract⟩
  refine Run.trans ⟨_, logs_record (by rintro _ ⟨⟩) rightful trivial⟩ ?_
  exact (moves_runContract (behaves.host scope) _ _ hosted).mono id id Or.inr

include framed

theorem moves_call (contractId args : Bytes) (entryPoint : UInt32) :
    Moves (p.Within scope pre) (p.call level contractId entryPoint args) := by
  refine .bind (moves_sys behaves framed rfl) fun bytecode => ?_
  refine .bind (moves_requireObject _ _) fun bytecode => ?_
  intro w holds
  have read : p.Run (scope.under w.stack) w
      (final (level.sys .getObject (p.space .contractMetadata, contractId) w)) := moves_sys behaves framed rfl w holds
  cases reads : level.sys .getObject (p.space .contractMetadata, contractId) w with
  | error e w' =>
    rw [reads] at read
    rw [bind_of_error reads]
    exact read
  | ok stored w' =>
    rw [reads] at read
    rw [bind_of_ok reads]
    obtain ⟨new, logs⟩ := read
    cases stored with
    | none => exact ⟨new, logs⟩
    | some stored =>
      rw [requireObject, pure_bind]
      cases parsed : p.parseMetadata stored with
      | error e => exact ⟨new, logs⟩
      | ok metadata =>
        refine logs.run fun strict plain => ?_
        have framed' : Framed w'.stack := logs.stack ▸ framed _ holds
        refine keeps_bind (p.Run _ w') (.refl w') fun _ w₁ returned _ => ?_
        cases returned
        refine keeps_bind (p.Run _ w') (by rw [final_require]; exact .refl w') fun _ w₁ required _ => ?_
        obtain ⟨-, rfl⟩ := require_eq_ok_iff.mp required
        rw [get_bind]
        refine keeps_bind (p.Run _ w') (by rw [final_require]; exact .refl w') fun _ w₁ required _ => ?_
        obtain ⟨-, rfl⟩ := require_eq_ok_iff.mp required
        refine keeps_bind (p.Run _ w') (run_runInFrame behaves framed' rfl fun strict kernel => ?_) fun _ w₁ _ run => ?_
        · -- The metadata that was read is what is stored, unless reading was overridden.
          have read := behaves.read _ _ _ _ _ _ (framed _ holds) reads logs.journal (plain strict)
          refine ⟨stored, metadata, read.symm, parsed, ?_⟩
          cases system : metadata.system with
          | true => rfl
          | false => rw [contractFrame, system] at kernel; contradiction
        rw [get_bind]
        refine keeps_bind (p.Run _ w') (by rw [final_requireSuccess]; exact run) fun _ w₂ succeeded run => ?_
        exact run

theorem moves_checkAuthority (intent : Intent) (account data : Bytes) :
    Moves (p.Within scope pre) (p.checkAuthority intent level account data) := by
  have details (type : AuthorizationType) : Moves (p.Within scope pre) (callDetails type data) := by
    cases type with
    | contractCall => exact .get_bind fun w => .bind (moves_getCaller framed) fun _ => .pure _
    | transactionApplication | contractUpload => exact .pure _
  refine .bind (moves_requireWritable _ _) fun _ => ?_
  refine .get_bind fun w => ?_
  refine .bind (moves_sys behaves framed rfl) fun stored => ?_
  cases stored
  case' none => refine .bind (.pure false) fun overridden => ?_
  case' some bytes =>
    refine .bind (.ofExcept _) fun metadata => ?_
    refine .bind (.pure (authorizesItself _ metadata)) fun overridden => ?_
  all_goals
    cases overridden with
    | false => exact .bind (moves_current _ _) fun trx => moves_signedBy behaves framed _ _ _
    | true => exact .bind (details _) fun _ => .bind (moves_sys behaves framed rfl) fun _ => .ofExcept _

/-- The failure of a contract is thrown as a reversion. -/
theorem moves_applyCallContractOperation (intent : Intent) (o : CallContractOperation) :
    Moves (p.Within scope pre) (applyCallContractOperation intent level o) := by
  refine .bind (.get_bind fun w => .ofExcept _) fun _ => ?_
  refine .bind (moves_requireWritable _ _) fun _ => ?_
  refine moves_withPrivilege (?_ : Moves (p.Within scope Framed) _) ?_
  · refine .tryCatch (.ignore (moves_sys behaves (fun _ => id) rfl)) fun e => ?_
    cases e.type <;> exact .throw _
  · intro frame stack holds
    exact framed (frame :: stack) holds

omit framed

omit behaves in
/-- A thunk that insists on kernel mode was not asked for by a contract in user mode. -/
theorem trusted_of_direct (guarded : id.isGuarded = true) (direct : Direct id w.stack)
    (kernel : w.getCallerPrivilege = .kernelMode) : Trusted w.stack := by
  intro frame asks
  cases user : frame.callPrivilege with
  | kernelMode => rfl
  | userMode =>
    have caller : w.caller = some frame := direct guarded frame asks user
    rw [World.getCallerPrivilege, caller, Option.elim_some, user] at kernel
    contradiction

omit behaves in
theorem moves_requireKernelMode {next : Unit → HostM α} (guarded : id.isGuarded = true)
    (direct : ∀ stack, pre stack → Framed stack ∧ Direct id stack)
    (rest : Moves (p.Within scope fun stack => Framed stack ∧ Trusted stack) (next ())) :
    Moves (p.Within scope pre) (requireKernelMode >>= next) := by
  intro w holds
  by_cases kernel : w.getCallerPrivilege = .kernelMode
  · have ok : requireKernelMode w = .ok () w := by
      rw [requireKernelMode, get_bind, Runtime.requireKernelMode, if_pos kernel]
      rfl
    rw [bind_of_ok ok]
    exact rest w ⟨(direct _ holds).1, trusted_of_direct guarded (direct _ holds).2 kernel⟩
  · have err : ∃ e, requireKernelMode w = .error e w := by
      rw [requireKernelMode, get_bind, Runtime.requireKernelMode, if_neg kernel]
      exact ⟨_, rfl⟩
    obtain ⟨e, err⟩ := err
    rw [bind_of_error err]
    exact .refl w

omit behaves in
/-- A call is resolved, and then runs an overriding contract or a thunk. -/
theorem moves_resolved {next : CallTarget → HostM α} (sid : UInt32)
    (contract : ∀ (strict : Prop) contractId bytecode entryPoint metadata, ¬ strict →
      Moves (p.Within { scope with strict := strict } pre) (next (.contract contractId bytecode entryPoint metadata)))
    (thunk : ∀ thunkId isOverride, Moves (p.Within scope pre) (next (.thunk thunkId isOverride))) :
    Moves (p.Within scope pre) (p.resolve sid >>= next) := by
  intro w holds
  rcases resolve_cases (scope.under w.stack) sid w with ⟨e, err⟩ | ⟨target, w', ok, logs⟩
  · rw [bind_of_error err]
    exact .refl w
  rw [bind_of_ok ok]
  have holds' : pre w'.stack := logs.stack ▸ holds
  have same : ∀ scope : Scope, scope.under w.stack = scope.under w'.stack := fun scope => by rw [logs.stack]
  cases target with
  | thunk thunkId isOverride =>
    refine Run.trans ⟨_, logs⟩ ?_
    rw [same]
    exact thunk thunkId isOverride w' holds'
  | contract contractId bytecode entryPoint metadata =>
    refine logs.run fun strict plain => ?_
    have overridden : ¬ strict := fun holds => by simpa [Plain] using plain holds
    have run := contract strict contractId bytecode entryPoint metadata overridden w' holds'
    rw [← same] at run
    exact run

/-- An overriding contract. -/
theorem moves_runOverride (contractId bytecode args : Bytes) (entryPoint : UInt32) (metadata : ContractMetadata)
    (framed : ∀ stack, pre stack → Framed stack) (overridden : ¬ scope.strict) :
    Moves (p.Within scope pre) (p.runOverride level contractId bytecode entryPoint metadata args) := by
  refine .bind (fun w holds => ?_) fun _ => .get_bind fun _ => .pure _
  exact run_runInFrame behaves (framed _ holds) rfl fun strict => absurd strict overridden

theorem moves_enter (thunk : BlockThunk) (framed : ∀ stack, pre stack → Framed stack) :
    Moves (p.Within scope pre) (p.enter level thunk) := by
  refine moves_resolved _ ?_ ?_
  · intro strict contractId bytecode entryPoint metadata overridden
    refine .bind (moves_runOverride behaves _ _ _ _ _ framed overridden) fun result => ?_
    exact .bind (.of_final (final_requireSuccess result)) fun _ => .pure _
  · intro thunkId isOverride
    refine .bind (.ofExcept _) fun number => ?_
    cases p.ofNumber number with
    | none => exact .throw _
    | some target => exact .bind (moves_charge _ _) fun _ => .bind (.require _ _) fun _ => .pure _

omit behaves in
theorem lenient_within : Lenient (p.Within scope pre) where
  blockHashCode _ _ _ :=
    ⟨[], Still.logs ⟨rfl, rfl, rfl, rfl, rfl, rfl, rfl, .of_eq rfl rfl, .of_eq rfl rfl rfl, rfl⟩ rfl id⟩
  operation _ _ _ :=
    ⟨[], Still.logs ⟨rfl, rfl, rfl, rfl, rfl, rfl, rfl, .of_eq rfl rfl, .of_eq rfl rfl rfl, rfl⟩ rfl id⟩
  pushLog message := moves_charges (.pushLog message)
  useNetworkBandwidth bytes := moves_charges (.useNetworkBandwidth bytes)

/-- The system calls of block application, when no contract in user mode asks for them. -/
theorem move_systemCalls (framed : ∀ stack, pre stack → Framed stack ∧ Trusted stack) :
    (p.systemCalls level).Move (p.Within scope pre) := by
  constructor
  case enter => exact fun thunk => moves_enter behaves thunk fun stack holds => (framed stack holds).1
  all_goals
    intros
    exact moves_sys_trusted behaves framed fun _ => trivial

omit behaves in
theorem space_ne_transactionNonce {s : SystemSpace} (other : s ≠ .transactionNonce) :
    p.space s ≠ p.space .transactionNonce := fun same => other (p.space_injective same)

/-- A write of native code in another space than that of the nonces. -/
theorem moves_putSystemObject {s : SystemSpace} (other : s ≠ .transactionNonce) (key obj : Bytes)
    (framed : ∀ stack, pre stack → Framed stack ∧ Trusted stack) :
    Moves (p.Within scope pre) (level.sys .putObject (p.space s, key, obj)) :=
  moves_sys_trusted behaves framed fun _ => space_ne_transactionNonce other

theorem moves_applyUploadContractOperation (intent : Intent) (o : UploadContractOperation)
    (direct : ∀ stack, pre stack → Framed stack ∧ Direct .applyUploadContractOperation stack) :
    Moves (p.Within scope pre) (p.applyUploadContractOperation intent level o) := by
  refine moves_requireKernelMode rfl direct ?_
  have framed : ∀ stack, Framed stack ∧ Trusted stack → Framed stack := fun _ => And.left
  refine .bind (moves_requireWritable _ _) fun _ => ?_
  refine .bind (moves_sys behaves framed rfl) fun authorized => ?_
  refine .bind (.require _ _) fun _ => ?_
  refine .bind (moves_sys behaves framed rfl) fun stored => ?_
  cases stored
  case' none => refine .bind (.pure _) fun before => ?_
  case' some bytes => refine .bind (.ofExcept _) fun before => ?_
  all_goals
    refine .bind (Runtime.moves_hash (move_systemCalls behaves fun _ => id) lenient_within _) fun hash => ?_
    refine .bind (moves_putSystemObject behaves (by rintro ⟨⟩) _ _ fun _ => id) fun _ => ?_
    exact moves_putSystemObject behaves (by rintro ⟨⟩) _ _ fun _ => id

theorem moves_applySetSystemCallOperation (intent : Intent) (o : SetSystemCallOperation)
    (direct : ∀ stack, pre stack → Framed stack ∧ Direct .applySetSystemCallOperation stack) :
    Moves (p.Within scope pre) (p.applySetSystemCallOperation intent level o) := by
  refine moves_requireKernelMode rfl direct ?_
  have framed : ∀ stack, Framed stack ∧ Trusted stack → Framed stack := fun _ => And.left
  refine .bind (moves_requireWritable _ _) fun _ => ?_
  refine .bind (moves_requireSystemAuthority behaves framed) fun _ => ?_
  refine .bind (moves_checkTarget behaves framed _ _) fun _ => ?_
  refine .bind (moves_putSystemObject behaves (by rintro ⟨⟩) _ _ fun _ => id) fun _ => ?_
  exact moves_sys behaves framed rfl

theorem moves_applySetSystemContractOperation (intent : Intent) (o : SetSystemContractOperation)
    (direct : ∀ stack, pre stack → Framed stack ∧ Direct .applySetSystemContractOperation stack) :
    Moves (p.Within scope pre) (p.applySetSystemContractOperation intent level o) := by
  refine moves_requireKernelMode rfl direct ?_
  have framed : ∀ stack, Framed stack ∧ Trusted stack → Framed stack := fun _ => And.left
  refine .bind (moves_requireWritable _ _) fun _ => ?_
  refine .bind (moves_requireSystemAuthority behaves framed) fun _ => ?_
  refine .bind (moves_sys behaves framed rfl) fun bytecode => ?_
  refine .bind (.ignore (moves_requireObject _ _)) fun _ => ?_
  refine .bind (moves_sys behaves framed rfl) fun stored => ?_
  refine .bind (moves_requireObject _ _) fun stored => ?_
  refine .bind (.ofExcept _) fun metadata => ?_
  refine .bind (.require _ _) fun _ => ?_
  refine .bind (moves_putSystemObject behaves (by rintro ⟨⟩) _ _ fun _ => id) fun _ => ?_
  exact moves_sys behaves framed rfl

theorem moves_setAccountNonce (account nonce : Bytes) (bound : ¬ scope.free)
    (direct : ∀ stack, pre stack → Framed stack ∧ Direct .setAccountNonce stack) :
    Moves (p.Within scope pre) (p.setAccountNonce level account nonce) := by
  refine moves_requireKernelMode rfl direct ?_
  refine .bind (.ignore (moves_requireNumber _ _ _)) fun _ => ?_
  exact moves_sys_trusted behaves (fun _ => id) fun free => absurd free bound

end Thunks

end Platform

end Teleno.Chain
