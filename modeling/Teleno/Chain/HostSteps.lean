import Teleno.Chain.Journal

/-! # The steps of the host

The primitive programs of the host stay within the rules of the journal: charging, filling the caches,
pushing frames and dropping privileges, and reading and writing objects.
-/

namespace Teleno.Chain

open Library StateDb Exec World List

namespace Platform

open Incident

variable {p : Platform} {scope : Scope} {pre : List StackFrame → Prop}

section Steps

theorem run_of_charges {w w' : World Host} (charges : Charges w w') : p.Run scope w w' := by
  refine ⟨[], (Still.of_charges charges).logs ?_ ?_⟩
  · obtain ⟨-, -, -, meter, chronicler, session, rfl⟩ := charges
    rfl
  · obtain ⟨-, -, -, meter, chronicler, session, rfl⟩ := charges
    exact id

/-- Charging and logging. -/
theorem moves_charges {α : Type} {program : HostM α} (charges : Moves Charges program) :
    Moves (p.Within scope pre) program := charges.mono fun _ _ charges _ => run_of_charges charges

/-- Noting something other than a write, after the caches may have been filled. -/
theorem logs_note {w w' : World Host} {r : Incident} (still : Still w w')
    (journal : w'.rest.journal = w.rest.journal) (unwritten : ∀ write, r ≠ .wrote write)
    (rightful : scope.strict → p.Rightful r) (cached : p.Cached (p.parentObjects w) w.rest →
      p.Cached (p.parentObjects w) w'.rest ∧ p.Faithful (p.parentObjects w) r) :
    p.Logs scope w [r] (final (record r w')) where
  stack := still.stack
  journal := congrArg (· ++ [r]) journal
  grounded := (still.setRest _).grounded
  isolated _ _ := (still.setRest _).local (by simpa using fun write => (unwritten write).symm) fun sound =>
    (cached sound).imp (fun sound => ⟨sound.target, sound.registry⟩) (by simpa using ·)
  balanced := by
    cases r with
    | wrote write => exact (unwritten write rfl).elim
    | resolved | priced | ran | applied => simp [Incident.Balanced]
  rightful holds _ := by simpa using rightful holds
  asked _ := by
    cases r with
    | wrote write => exact (unwritten write rfl).elim
    | resolved | priced | ran | applied => simp [NonceAsked]

theorem logs_record {w : World Host} {r : Incident} (unwritten : ∀ write, r ≠ .wrote write)
    (rightful : scope.strict → p.Rightful r) (faithful : p.Faithful (p.parentObjects w) r) :
    p.Logs scope w [r] (final (record r w)) :=
  logs_note (.refl w) rfl unwritten rightful fun sound => ⟨sound, faithful⟩

end Steps

section Caches

/-- How the system call table answers. -/
theorem cacheSystemCall_cases (id : UInt32) (w : World Host) :
    (∃ e, p.cacheSystemCall id w = .error e w) ∨ ∃ target w', p.cacheSystemCall id w = .ok target w' ∧
      Still w w' ∧ w'.rest.journal = w.rest.journal ∧ (p.Cached (p.parentObjects w) w.rest →
        p.Cached (p.parentObjects w) w'.rest ∧ p.lookupTarget (p.parentObjects w) id = .ok target) := by
  rw [cacheSystemCall, get_bind]
  cases stored : w.rest.systemCallTable id with
  | some target => exact .inr ⟨target, w, rfl, .refl w, rfl, fun sound => ⟨sound, sound.target id target stored⟩⟩
  | none =>
    dsimp only
    cases looked : p.lookupTarget (p.parentObjects w) id with
    | error e => exact .inl ⟨e, rfl⟩
    | ok target =>
      refine .inr ⟨target, _, rfl, (Still.refl w).setRest _, rfl, fun sound => ⟨?_, rfl⟩⟩
      refine ⟨fun sid entry found => ?_, sound.registry⟩
      change Function.update w.rest.systemCallTable id (some target) sid = _ at found
      rcases eq_or_ne sid id with rfl | other
      · rw [Function.update_self] at found
        rw [looked, Option.some.inj found]
      · rw [Function.update_of_ne other] at found
        exact sound.target sid entry found

/-- A system call is resolved, and the resolution noted. -/
theorem resolve_cases (scope : Scope) (id : UInt32) (w : World Host) : (∃ e, p.resolve id w = .error e w) ∨
    ∃ target w', p.resolve id w = .ok target w' ∧ p.Logs scope w [.resolved id target] w' := by
  rcases p.cacheSystemCall_cases id w with ⟨e, err⟩ | ⟨target, w', ok, still, journal, cached⟩
  · exact .inl ⟨e, bind_of_error err⟩
  · refine .inr ⟨target, _, (bind_of_ok ok).trans rfl, ?_⟩
    exact logs_note still journal (by rintro _ ⟨⟩) (fun _ => trivial) cached

theorem computeRegistry_cases (w : World Host) :
    (∃ e, p.computeRegistry w = .error e w) ∨ ∃ registry w', p.computeRegistry w = .ok registry w' ∧
      Still w w' ∧ w'.rest.journal = w.rest.journal ∧ (p.Cached (p.parentObjects w) w.rest →
        p.Cached (p.parentObjects w) w'.rest ∧ p.lookupRegistry (p.parentObjects w) = .ok registry) := by
  rw [computeRegistry, get_bind]
  cases stored : w.rest.computeBandwidth with
  | some registry =>
    exact .inr ⟨registry, w, rfl, .refl w, rfl, fun sound => ⟨sound, sound.registry registry stored⟩⟩
  | none =>
    dsimp only
    cases looked : p.lookupRegistry (p.parentObjects w) with
    | error e => exact .inl ⟨e, rfl⟩
    | ok registry =>
      refine .inr ⟨registry, _, rfl, (Still.refl w).setRest _, rfl, fun sound => ⟨⟨sound.target, ?_⟩, rfl⟩⟩
      intro found same
      rw [looked, Option.some.inj same]

/-- A price is looked up and noted. -/
theorem moves_getComputeBandwidth (name : String) : Moves (p.Within scope pre) (p.getComputeBandwidth name) := by
  intro w _
  rcases p.computeRegistry_cases w with ⟨e, err⟩ | ⟨registry, w', ok, still, journal, cached⟩
  · rw [getComputeBandwidth, bind_of_error err]
    exact .refl w
  · rw [getComputeBandwidth, bind_of_ok ok]
    cases price : lookupPrice registry name with
    | none => exact ⟨[], still.logs journal fun sound => (cached sound).1⟩
    | some compute =>
      refine ⟨[.priced name compute], ?_⟩
      exact logs_note still journal (by rintro _ ⟨⟩) (fun _ => trivial) fun sound =>
        (cached sound).imp_right fun looked => ⟨registry, looked, price⟩

theorem moves_charge (name : String) (times : UInt64) : Moves (p.Within scope pre) (p.charge name times) :=
  .bind (moves_getComputeBandwidth name) fun _ => moves_charges (.useComputeBandwidth _)

/-- Charging leaves the state alone. -/
theorem still_charge (name : String) (times : UInt64) : Moves Still (p.charge name times) := by
  refine .bind (fun w => ?_) fun _ => (Charges.useComputeBandwidth _).mono fun _ _ => Still.of_charges
  rcases p.computeRegistry_cases w with ⟨e, err⟩ | ⟨registry, w', ok, still, -, -⟩
  · rw [getComputeBandwidth, bind_of_error err]
    exact .refl w
  · rw [getComputeBandwidth, bind_of_ok ok]
    cases lookupPrice registry name with
    | none => exact still
    | some compute => exact still.setRest _

theorem moves_descriptorPool : Moves (p.Within scope pre) p.descriptorPool := by
  intro w _
  rw [descriptorPool, get_bind]
  cases w.rest.descriptorPool with
  | some descriptor => exact .refl w
  | none =>
    dsimp only
    cases p.parentObjects w .metadata (p.objectKey "protocol_descriptor") with
    | none => exact .refl w
    | some descriptor =>
      exact ⟨[], ((Still.refl w).setRest _).logs rfl fun sound => ⟨sound.target, sound.registry⟩⟩

end Caches

section Frames

variable {pre' : List StackFrame → Prop} {α : Type} {body : HostM α}

variable {w : World Host}

/-- A run under another stack that is put back afterwards. -/
theorem Logs.restack {w' : World Host} {new : List Incident} {stack : List StackFrame}
    (logs : p.Logs scope { w with stack := stack } new w') : p.Logs scope w new { w' with stack := w.stack } :=
  { logs with
    stack := rfl
    grounded := { logs.grounded with }
    isolated holds calm := (logs.isolated holds calm).restack w.stack w.stack }

theorem run_withStackFrame {frame : StackFrame}
    (run : w.stack.length < stackLimit → p.Run scope { w with stack := frame :: w.stack }
      (final (body { w with stack := frame :: w.stack }))) :
    p.Run scope w (final (withStackFrame frame body w)) := by
  by_cases room : w.stack.length < stackLimit
  · obtain ⟨new, logs⟩ := run room
    rw [withStackFrame, bind_of_ok (pushFrame_of_lt frame room), final_within]
    have popped : popFrame (final (body { w with stack := frame :: w.stack })) =
        { final (body { w with stack := frame :: w.stack }) with stack := w.stack } := by
      rw [popFrame, logs.stack]
      rfl
    rw [id_eq, popped]
    exact ⟨new, logs.restack⟩
  · obtain ⟨e, err⟩ := pushFrame_of_not_lt frame room
    rw [withStackFrame, bind_of_error err]
    exact .refl w

/-- The frame of a system call does not change who asks. -/
theorem moves_withSystemCall (moves : Moves (p.Within scope pre') body)
    (enter : ∀ stack, pre stack → stack.length < stackLimit → pre' (.systemCall :: stack)) :
    Moves (p.Within scope pre) (withStackFrame .systemCall body) := by
  intro w holds
  apply run_withStackFrame
  intro room
  exact moves { w with stack := .systemCall :: w.stack } (enter w.stack holds room)

/-- Dropping the privilege of the top frame for a while. -/
theorem moves_withPrivilege {privilege : Privilege} (moves : Moves (p.Within scope pre') body)
    (enter : ∀ frame stack, pre (frame :: stack) → pre' ({ frame with callPrivilege := privilege } :: stack)) :
    Moves (p.Within scope pre) (withPrivilege privilege body) := by
  intro w holds
  cases stack : w.stack with
  | nil =>
    have err : getPrivilege w = .error (stackEmpty "stack empty") w := by
      rw [getPrivilege, get_bind, stack]
      rfl
    rw [withPrivilege, bind_of_error err]
    exact .refl w
  | cons frame below =>
    have ok : getPrivilege w = .ok frame.callPrivilege w := by
      rw [getPrivilege, get_bind, stack]
      rfl
    have dropped : setTopPrivilege w privilege =
        { w with stack := { frame with callPrivilege := privilege } :: below } := by
      rw [setTopPrivilege, stack]
    rw [stack] at holds
    obtain ⟨new, logs⟩ := moves (setTopPrivilege w privilege) (by rw [dropped]; exact enter frame below holds)
    have same : (scope.under (setTopPrivilege w privilege).stack) = scope.under w.stack := by
      rw [dropped, Scope.under, Scope.under, stack, asked_setPrivilege]
    rw [withPrivilege, bind_of_ok ok, modify_bind, final_within, ← stack]
    refine ⟨new, ?_⟩
    rw [same] at logs
    have restored : setTopPrivilege (final (body (setTopPrivilege w privilege))) frame.callPrivilege =
        { final (body (setTopPrivilege w privilege)) with stack := w.stack } := by
      rw [setTopPrivilege, logs.stack, dropped, stack]
    change p.Logs _ w new (setTopPrivilege (final (body (setTopPrivilege w privilege))) _)
    rw [restored]
    rw [dropped] at logs ⊢
    exact logs.restack

/-- `get_caller` puts back the frames that it takes. -/
theorem getCaller_of_framed (framed : Framed w.stack) : ∃ data, getCaller w = .ok data w := by
  obtain ⟨two, limit⟩ := framed
  rcases stack : w.stack with - | ⟨frame0, - | ⟨frame1, rest⟩⟩
  · rw [stack] at two
    contradiction
  · rw [stack] at two
    contradiction
  rw [stack, length_cons, length_cons] at limit
  have first : takeFrame w = .ok frame0 { w with stack := frame1 :: rest } := by
    rw [takeFrame, get_bind, stack]
    simp only [modify_bind, popFrame, stack]
    rfl
  have second : takeFrame { w with stack := frame1 :: rest } = .ok frame1 { w with stack := rest } := rfl
  have third : pushFrame frame1 { w with stack := rest } = .ok () { w with stack := frame1 :: rest } := by
    apply pushFrame_of_lt
    dsimp only
    omega
  have fourth : pushFrame frame0 { w with stack := frame1 :: rest } =
      .ok () { w with stack := frame0 :: frame1 :: rest } := by
    apply pushFrame_of_lt
    dsimp only [length_cons]
    omega
  rw [getCaller, bind_of_ok first, bind_of_ok second, get_bind, bind_of_ok third, bind_of_ok fourth, ← stack]
  exact ⟨_, rfl⟩

theorem moves_getCaller (framed : ∀ stack, pre stack → Framed stack) : Moves (p.Within scope pre) getCaller := by
  intro w holds
  obtain ⟨data, ok⟩ := getCaller_of_framed (framed _ holds)
  rw [ok]
  exact .refl w

end Frames

section Writes

variable {space : ObjectSpace} {key : Bytes} {value : Option Bytes}

variable {w : World Host}

/-- What a write does to the state, to the journal and, if it is accepted, to the meter. -/
theorem run_write {w' : World Host} {heap : Heap} (write : Write) (node : write.node = w.stateNode)
    (old : write.old = w.heap.find w.stateNode (p.codec.serialize ⟨write.space, write.key⟩))
    (rewrites : w.heap.Rewrites w.stateNode heap)
    (view : (w.heap.cell w.stateNode).backend.isSome →
      heap.find w.stateNode = View.write p.codec (w.heap.find w.stateNode) write.space write.key write.value)
    (balanced : (Incident.wrote write).Balanced p.codec) (rightful : p.Rightful (.wrote write))
    (asked : scope.free → p.NonceAsked (.wrote write))
    (ends : ∃ meter session, w' = { w with
      heap := heap
      meter := meter
      session := session
      rest := { w.rest with journal := w.rest.journal ++ [.wrote write] } })
    (metered : Metered w w') (session : w'.session.map (·.events) = w.session.map (·.events))
    (disk : DiskSpent w.meter.diskStorageRemaining [.wrote write] w'.meter.diskStorageRemaining) :
    p.Run scope w w' := by
  obtain ⟨meter, session', rfl⟩ := ends
  exact ⟨[.wrote write],
    { stack := rfl
      journal := rfl
      grounded := .of_rewrites rewrites rfl
      isolated := fun _ _ =>
        { stateNode := rfl
          parentNode := rfl
          mempoolNonce := rfl
          receipt := rfl
          detached := rfl
          metered := metered
          chronicled := .of_eq rfl rfl session
          disk := disk
          rewrites := rewrites
          view := view
          tallied := fun _ => ⟨old, trivial⟩
          located := by
            intro write' mem
            rw [mem_singleton, Incident.wrote.injEq] at mem
            rw [mem, node]
          cached := fun _ sound => ⟨⟨sound.target, sound.registry⟩, by simp [Faithful]⟩ }
      balanced := forall_mem_singleton.mpr balanced
      rightful := fun _ _ => forall_mem_singleton.mpr rightful
      asked := fun holds => forall_mem_singleton.mpr (asked holds) }⟩

/-- A write that returns has put the value on the current node, and answers by how many bytes the node has grown. -/
def Stores (p : Platform) (w : World Host) (space : ObjectSpace) (key : Bytes) (value : Option Bytes)
    (outcome : Except StateDbError (ℤ × Heap)) : Prop :=
  ∀ bytes heap, outcome = .ok (bytes, heap) → w.heap.Rewrites w.stateNode heap ∧
    ((w.heap.cell w.stateNode).backend.isSome →
      heap.find w.stateNode = View.write p.codec (w.heap.find w.stateNode) space key value) ∧
    bytes = objectBytes (p.codec.serialize ⟨space, key⟩) value -
      objectBytes (p.codec.serialize ⟨space, key⟩) (w.heap.find w.stateNode (p.codec.serialize ⟨space, key⟩))

/-- A write that was permitted: it is noted, and then charged for. -/
theorem run_settleWrite {outcome : Except StateDbError (ℤ × Heap)} (writes : p.Stores w space key value outcome)
    (rightful : ∀ frame, requester w.stack = some frame → frame.callPrivilege = .userMode →
      space.system = false ∧ space.zone = frame.contractId)
    (asked : scope.free → space = p.space .transactionNonce → Asked w.stack) :
    p.Run scope w (final (p.settleWrite space key value outcome w)) := by
  cases outcome with
  | error e => exact .refl w
  | ok written =>
    obtain ⟨bytes, heap⟩ := written
    obtain ⟨rewrites, view, balanced⟩ := writes bytes heap rfl
    let write : Write := ⟨w.stack, w.stateNode, space, key, value,
      w.heap.find w.stateNode (p.codec.serialize ⟨space, key⟩), bytes, w.meter, w.session⟩
    have ends : final (p.settleWrite space key value (.ok (bytes, heap)) w) =
        final (useDiskStorage (Int64.ofInt bytes) { w with
          heap := heap
          rest := { w.rest with journal := w.rest.journal ++ [.wrote write] } }) := rfl
    rw [ends]
    cases used : w.meter.useDiskStorage w.session (Int64.ofInt bytes) with
    | error e =>
      have refused : ¬ write.accepted = true := by simp [write, Write.accepted, used, Except.isOk, Except.toBool]
      rw [useDiskStorage, useResource_of_error used]
      refine run_write write rfl rfl rewrites view balanced rightful asked ⟨w.meter, w.session, rfl⟩
        (.of_eq rfl rfl) rfl ⟨refused.elim, ?_⟩
      rw [DiskSpent, Incident.debit, if_neg refused]
      rfl
    | ok result =>
      have accepted : write.accepted = true := congrArg Except.isOk used
      obtain ⟨covered, debited, events, spends⟩ := ResourceMeter.useDiskStorage_eq_ok used
      rw [useDiskStorage, useResource_of_ok used]
      refine run_write write rfl rfl rewrites view balanced rightful asked ⟨result.1, result.2, rfl⟩
        ⟨isSome_of_map_eq events, spends⟩ events ⟨fun _ => covered, ?_⟩
      rw [DiskSpent, Incident.debit, if_pos accepted]
      exact debited

theorem assertPermissions_cases (space : ObjectSpace) (w : World Host) :
    (∃ e, assertPermissions space w = .error e w) ∨ assertPermissions space w = .ok () w ∧
      (w.getCallerPrivilege = .userMode → space.system = false ∧ space.zone = w.getCaller) := by
  rw [assertPermissions, get_bind]
  cases w.getCallerPrivilege with
  | kernelMode => cases space.system with
    | true => exact .inr ⟨rfl, by simp⟩
    | false => exact .inl ⟨_, rfl⟩
  | userMode =>
    dsimp only
    cases system : space.system with
    | true => exact .inl ⟨_, rfl⟩
    | false =>
      by_cases zone : space.zone = w.getCaller
      · exact .inr ⟨by rw [decide_eq_true zone]; rfl, fun _ => ⟨rfl, zone⟩⟩
      · exact .inl ⟨_, by rw [decide_eq_false zone]; rfl⟩

theorem moves_assertPermissions (space : ObjectSpace) : Moves (p.Within scope pre) (assertPermissions space) := by
  apply Moves.of_final
  intro w
  rcases assertPermissions_cases space w with ⟨e, err⟩ | ⟨ok, -⟩
  · rw [err]
    rfl
  · rw [ok]
    rfl

/-- Writing on the current node, after the permissions have been checked. -/
theorem moves_permitted {id : SystemCallId} (guarded : id.isGuarded = true) (value : Option Bytes)
    {write : World Host → Except StateDbError (ℤ × Heap)}
    (writes : ∀ w, p.Stores w space key value (write w))
    (framed : ∀ stack, pre stack → Direct id stack) (free : scope.free → space ≠ p.space .transactionNonce) :
    Moves (p.Within scope pre) (do
      assertPermissions space
      let w ← get
      p.settleWrite space key value (write w)) := by
  intro w holds
  rcases assertPermissions_cases space w with ⟨e, err⟩ | ⟨ok, permitted⟩
  · rw [bind_of_error err]
    exact .refl w
  · rw [bind_of_ok ok, get_bind]
    refine run_settleWrite (writes w) (fun frame asks user => ?_) fun asked nonce => ?_
    · -- What a direct call may write is in the space of the contract in user mode that makes it.
      have caller : w.caller = some frame := framed _ holds guarded frame asks user
      rw [World.getCallerPrivilege, World.getCaller, caller] at permitted
      exact permitted user
    · exact asked.resolve_right fun holds => free holds nonce

theorem moves_requireWritable (intent : Intent) (message : String) :
    Moves (p.Within scope pre) (requireWritable intent message) := .require _ _

theorem moves_putObject (intent : Intent) {obj : Bytes} (direct : ∀ stack, pre stack → Direct .putObject stack)
    (free : scope.free → space ≠ p.space .transactionNonce) :
    Moves (p.Within scope pre) (p.putObject intent space key obj) := by
  refine .bind (moves_requireWritable intent _) fun _ => ?_
  refine .bind (moves_charge _ _) fun _ => ?_
  apply moves_permitted rfl (some obj) ?_ direct free
  intro w bytes heap written
  rw [Heap.putObject] at written
  split at written
  · contradiction
  cases written
  refine ⟨w.heap.rewrites_put _ _, fun held => w.heap.find_put held _ _, ?_⟩
  cases w.heap.find w.stateNode (p.codec.serialize ⟨space, key⟩) with
  | none => simp [objectBytes]
  | some old =>
    simp only [objectBytes, Option.elim_some]
    omega

theorem moves_removeObject (intent : Intent) (direct : ∀ stack, pre stack → Direct .removeObject stack)
    (free : scope.free → space ≠ p.space .transactionNonce) :
    Moves (p.Within scope pre) (p.removeObject intent space key) := by
  refine .bind (moves_requireWritable intent _) fun _ => ?_
  apply moves_permitted rfl none ?_ direct free
  intro w bytes heap written
  rw [Heap.removeObject] at written
  split at written
  · contradiction
  cases written
  refine ⟨w.heap.rewrites_erase _ _, fun _ => w.heap.find_erase _ _, ?_⟩
  cases w.heap.find w.stateNode (p.codec.serialize ⟨space, key⟩) with
  | none => simp [objectBytes]
  | some old =>
    simp only [objectBytes, Option.elim_none, Option.elim_some]
    omega

theorem moves_chargeObject (result : Option Bytes) : Moves (p.Within scope pre) (p.chargeObject result) := by
  cases result with
  | none => exact .pure _
  | some value => exact moves_charge _ _

theorem moves_getObject : Moves (p.Within scope pre) (p.getObject space key) := by
  refine .bind (moves_assertPermissions space) fun _ => .get_bind fun w => ?_
  exact .bind (moves_chargeObject _) fun _ => .pure _

/-- The object that is read is that of the current node. -/
theorem getObject_eq_ok {w' : World Host} {result : Option Bytes} (ok : p.getObject space key w = .ok result w') :
    result = w'.heap.getObject p.codec w'.stateNode space key := by
  obtain ⟨_, w₁, permitted, rest⟩ := bind_eq_ok ok
  rw [get_bind] at rest
  obtain ⟨_, w₂, charged, ends⟩ := bind_eq_ok rest
  have still : Moves Still (p.chargeObject (w₁.heap.getObject p.codec w₁.stateNode space key)) := by
    cases w₁.heap.getObject p.codec w₁.stateNode space key with
    | none => exact .pure _
    | some value => exact still_charge _ _
  have same := still.ok charged
  cases ends
  rw [same.heap, same.stateNode]

theorem moves_getNeighbour (neighbour : Heap → ℕ → ObjectSpace → Bytes → Option (Bytes × Bytes)) :
    Moves (p.Within scope pre) (p.getNeighbour neighbour space key) := by
  refine .bind (moves_assertPermissions space) fun _ => .get_bind fun w => ?_
  exact .bind (moves_chargeObject _) fun _ => .pure _

end Writes

end Platform

end Teleno.Chain
