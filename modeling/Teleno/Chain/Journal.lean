import Teleno.Chain.HostApi
import Teleno.Chain.Metering
import Teleno.Chain.Grounding

/-! # What a run of the host does

Whatever contracts do, a run leaves the stack as it was and only touches the current node and nodes made
later. The journal tells what happened in it, and each new entry keeps some rules: a write that a contract in
user mode asked for is in the contract's own space, and a contract in kernel mode is marked as a system
contract by its metadata. As long as no block and no transaction is applied inside the run, the writes in the
journal are all that happens to the state, they go to the current node, and the caches hold what the parent
node says.

`Within` states all of this under a condition on the stack. The programs of the host are then taken apart
once, by the rules of `Moves`.
-/

namespace Teleno.Chain

open Library StateDb List

section Stack

/-- The innermost contract on the stack. -/
def requester (stack : List StackFrame) : Option StackFrame := stack.find? (·.contract.isSome)

/-- What happens is asked for by a contract. -/
def Asked (stack : List StackFrame) : Prop := (requester stack).isSome

/-- No contract in user mode asks for what happens. -/
def Trusted (stack : List StackFrame) : Prop :=
  ∀ frame, requester stack = some frame → frame.callPrivilege = .kernelMode

/-- There is room for what `get_caller` takes off the stack and puts back. -/
def Framed (stack : List StackFrame) : Prop := 2 ≤ stack.length ∧ stack.length ≤ World.stackLimit

theorem Framed.cons {stack : List StackFrame} (framed : Framed stack) (room : stack.length < World.stackLimit)
    (frame : StackFrame) : Framed (frame :: stack) := by
  obtain ⟨two, -⟩ := framed
  constructor <;> rw [length_cons] <;> omega

/-- The stack under which a contract calls the host. -/
def Hosted (stack : List StackFrame) : Prop :=
  Framed stack ∧ ∃ frame below, stack = frame :: below ∧ frame.contract.isSome

@[simp] theorem requester_systemCall (stack : List StackFrame) :
    requester (.systemCall :: stack) = requester stack := rfl

theorem requester_of_contract {frame : StackFrame} (contract : frame.contract.isSome) (stack : List StackFrame) :
    requester (frame :: stack) = some frame := by
  simp [requester, contract]

/-- Changing the privilege of the top frame does not change who asks, only with which privilege. -/
theorem asked_setPrivilege {frame : StackFrame} {stack : List StackFrame} (privilege : Privilege) :
    Asked ({ frame with callPrivilege := privilege } :: stack) ↔ Asked (frame :: stack) := by
  rw [Asked, Asked, requester, requester, find?_cons, find?_cons]
  cases contract : frame.contract.isSome <;> rfl

end Stack

/-- The calls that a thunk must not make for a contract in user mode. -/
def SystemCallId.isGuarded (id : SystemCallId) : Bool :=
  id ∈ [putObject, removeObject, applyBlock, applyTransaction, applyUploadContractOperation,
    applySetSystemCallOperation, applySetSystemContractOperation, setAccountNonce]

/-- A guarded call for a contract in user mode is made by that contract itself. -/
def Direct (id : SystemCallId) (stack : List StackFrame) : Prop :=
  id.isGuarded = true → ∀ frame, requester stack = some frame → frame.callPrivilege = .userMode →
    stack.tail.head? = some frame

theorem Trusted.direct {stack : List StackFrame} (trusted : Trusted stack) (id : SystemCallId) : Direct id stack := by
  intro _ frame asks user
  rw [trusted frame asks] at user
  contradiction

variable {new : List Incident}

namespace Incident

/-- The system call ran its own thunk. -/
def Plain : Incident → Prop
  | resolved sid target => target = .thunk sid false
  | _ => True

/-- No contract applies a block or a transaction. -/
def Calm : Incident → Prop
  | applied => False
  | _ => True

instance : DecidablePred Calm
  | applied => .isFalse id
  | resolved _ _ | priced _ _ | wrote _ | ran _ _ => .isTrue trivial

/-- What the incident does to the objects of the current node. -/
def amend (codec : KeyCodec) (view : View) : Incident → View
  | wrote write => view.write codec write.space write.key write.value
  | _ => view

/-- The objects of the current node after a part of the journal. -/
def replay (codec : KeyCodec) (view : View) (new : List Incident) : View := new.foldl (amend codec) view

/-- The number of bytes of an object with its serialized key. -/
def objectBytes (key : Bytes) (value : Option Bytes) : ℤ := value.elim 0 fun bytes => key.length + bytes.length

/-- The bytes of a write are what it adds in the place of the object before. -/
def Balanced (codec : KeyCodec) : Incident → Prop
  | wrote write =>
    let key := codec.serialize ⟨write.space, write.key⟩
    write.bytes = objectBytes key write.value - objectBytes key write.old
  | _ => True

/-- The object before a write is the one that a view shows. -/
def Measured (codec : KeyCodec) (view : View) : Incident → Prop
  | wrote write => write.old = view (codec.serialize ⟨write.space, write.key⟩)
  | _ => True

/-- Every write in a part of the journal is measured. -/
def Tallied (codec : KeyCodec) : View → List Incident → Prop
  | _, [] => True
  | view, incident :: rest => incident.Measured codec view ∧ Tallied codec (incident.amend codec view) rest

theorem replay_append (codec : KeyCodec) (view : View) (new new' : List Incident) :
    replay codec view (new ++ new') = replay codec (replay codec view new) new' := foldl_append

theorem Tallied.append {codec : KeyCodec} {new' : List Incident} {view : View} (first : Tallied codec view new)
    (second : Tallied codec (replay codec view new) new') : Tallied codec view (new ++ new') := by
  induction new generalizing view with
  | nil => exact second
  | cons incident rest ih => exact ⟨first.1, ih first.2 second⟩

/-- What the incident leaves of the disk storage. -/
def debit (remaining : UInt64) : Incident → UInt64
  | wrote write => if write.accepted then remaining - (Int64.ofInt write.bytes).toUInt64 else remaining
  | _ => remaining

/-- A write is only accepted if there is enough disk storage left. -/
def Covered (remaining : UInt64) : Incident → Prop
  | wrote write => write.accepted = true → Int64.ofInt write.bytes ≤ remaining.toInt64
  | _ => True

/-- The disk storage that is left is debited with the accepted writes. -/
def DiskSpent : UInt64 → List Incident → UInt64 → Prop
  | remaining, [], remaining' => remaining' = remaining
  | remaining, incident :: rest, remaining' =>
    incident.Covered remaining ∧ DiskSpent (incident.debit remaining) rest remaining'

theorem DiskSpent.append {remaining remaining' remaining'' : UInt64} {new' : List Incident}
    (first : DiskSpent remaining new remaining') (second : DiskSpent remaining' new' remaining'') :
    DiskSpent remaining (new ++ new') remaining'' := by
  induction new generalizing remaining with
  | nil => exact first ▸ second
  | cons incident rest ih => exact ⟨first.1, ih first.2⟩

theorem diskSpent_of_unwritten (unwritten : ∀ write, wrote write ∉ new) (remaining : UInt64) :
    DiskSpent remaining new remaining := by
  induction new with
  | nil => rfl
  | cons incident rest ih =>
    have spent := ih fun write mem => unwritten write (mem_cons_of_mem _ mem)
    cases incident with
    | wrote write => exact (unwritten write mem_cons_self).elim
    | resolved | priced | ran | applied => exact ⟨trivial, spent⟩

/-- Without a write the objects stay. -/
theorem replay_of_unwritten (codec : KeyCodec) (unwritten : ∀ write, wrote write ∉ new)
    (view : View) : replay codec view new = view ∧ Tallied codec view new := by
  induction new with
  | nil => exact ⟨rfl, trivial⟩
  | cons incident rest ih =>
    obtain ⟨same, tallied⟩ := ih fun write mem => unwritten write (mem_cons_of_mem _ mem)
    cases incident with
    | wrote write => exact (unwritten write mem_cons_self).elim
    | resolved | priced | ran | applied => exact ⟨same, trivial, tallied⟩

end Incident

namespace Platform

open Incident

variable (p : Platform)

/-- What a contract in user mode writes is its own, and a contract in kernel mode is a system contract by
the metadata stored for it. -/
def Rightful : Incident → Prop
  | .wrote write => ∀ frame, requester write.stack = some frame → frame.callPrivilege = .userMode →
      write.space.system = false ∧ write.space.zone = frame.contractId
  | .ran frame metadata => frame.callPrivilege = .kernelMode →
      ∃ bytes data, metadata = some bytes ∧ p.parseMetadata bytes = .ok data ∧ data.system = true
  | _ => True

/-- A nonce is written for a contract. -/
def NonceAsked : Incident → Prop
  | .wrote write => write.space = p.space .transactionNonce → Asked write.stack
  | _ => True

/-- The system calls by which native code alone writes no nonce. -/
def NonceFree : (id : SystemCallId) → id.Args → Prop
  | .setAccountNonce, _ | .applyBlock, _ | .applyTransaction, _ => False
  | .putObject, (space, _, _) => space ≠ p.space .transactionNonce
  | .removeObject, (space, _) => space ≠ p.space .transactionNonce
  | _, _ => True

/-- A resolution or a price is the one that these objects determine. -/
def Faithful (objects : SystemSpace → Bytes → Option Bytes) : Incident → Prop
  | .resolved sid target => p.lookupTarget objects sid = .ok target
  | .priced name compute =>
    ∃ registry, p.lookupRegistry objects = .ok registry ∧ lookupPrice registry name = some compute
  | _ => True

/-- The caches hold what these objects say. -/
structure Cached (objects : SystemSpace → Bytes → Option Bytes) (host : Host) : Prop where
  target : ∀ sid target, host.systemCallTable sid = some target → p.lookupTarget objects sid = .ok target
  registry : ∀ registry, host.computeBandwidth = some registry → p.lookupRegistry objects = .ok registry

/-- What changes the objects of the current node is in the journal, and nothing else changes. -/
structure Local (w : World Host) (new : List Incident) (w' : World Host) : Prop where
  stateNode : w'.stateNode = w.stateNode
  parentNode : w'.parentNode = w.parentNode
  mempoolNonce : w'.mempoolNonce = w.mempoolNonce
  receipt : w'.receipt = w.receipt
  detached : w'.detachedSessions = w.detachedSessions
  metered : Metered w w'
  chronicled : Chronicled w w'
  disk : DiskSpent w.meter.diskStorageRemaining new w'.meter.diskStorageRemaining
  rewrites : w.heap.Rewrites w.stateNode w'.heap
  view : (w.heap.cell w.stateNode).backend.isSome →
    w'.heap.find w.stateNode = replay p.codec (w.heap.find w.stateNode) new
  tallied : (w.heap.cell w.stateNode).backend.isSome → Tallied p.codec (w.heap.find w.stateNode) new
  located : ∀ write, .wrote write ∈ new → write.node = w.stateNode
  cached : w.getParentNode < w.stateNode → p.Cached (p.parentObjects w) w.rest →
    p.Cached (p.parentObjects w) w'.rest ∧ ∀ r ∈ new, p.Faithful (p.parentObjects w) r

variable {w w' w'' : World Host} {new' : List Incident} {scope : Scope}

namespace Local

variable {p}

theorem getParentNode (first : p.Local w new w') : w'.getParentNode = w.getParentNode := by
  rw [World.getParentNode, World.getParentNode, first.stateNode, first.parentNode]

/-- The current node is not above its parent. -/
theorem parentObjects (first : p.Local w new w') (below : w.getParentNode < w.stateNode) :
    p.parentObjects w' = p.parentObjects w := by
  rw [Platform.parentObjects, Platform.parentObjects, first.getParentNode, first.rewrites.find_of_not_mem]
  intro mem
  have above := w.heap.le_of_mem_path mem
  omega

theorem trans (first : p.Local w new w') (second : p.Local w' new' w'') : p.Local w (new ++ new') w'' where
  stateNode := second.stateNode.trans first.stateNode
  parentNode := second.parentNode.trans first.parentNode
  mempoolNonce := second.mempoolNonce.trans first.mempoolNonce
  receipt := second.receipt.trans first.receipt
  detached := second.detached.trans first.detached
  metered := trans_of Metered first.metered second.metered
  chronicled := trans_of Chronicled first.chronicled second.chronicled
  disk := first.disk.append second.disk
  rewrites := first.rewrites.trans (first.stateNode ▸ second.rewrites)
  view := by
    intro held
    have later := second.view (by rw [first.stateNode, first.rewrites.frame.held_eq]; exact held)
    rw [first.stateNode] at later
    rw [later, first.view held, replay_append]
  tallied := by
    intro held
    have later := second.tallied (by rw [first.stateNode, first.rewrites.frame.held_eq]; exact held)
    rw [first.stateNode, first.view held] at later
    exact (first.tallied held).append later
  located := by
    intro write mem
    rcases mem_append.mp mem with early | late
    · exact first.located write early
    · exact (second.located write late).trans first.stateNode
  cached := by
    intro below sound
    obtain ⟨sound', early⟩ := first.cached below sound
    have later := second.cached (by rw [first.getParentNode, first.stateNode]; exact below)
    rw [first.parentObjects below] at later
    obtain ⟨sound'', late⟩ := later sound'
    exact ⟨sound'', forall_mem_append.mpr ⟨early, late⟩⟩

/-- The stack does not matter. -/
theorem restack (first : p.Local w new w') (stack stack' : List StackFrame) :
    p.Local { w with stack := stack } new { w' with stack := stack' } :=
  ⟨first.stateNode, first.parentNode, first.mempoolNonce, first.receipt, first.detached,
    ⟨first.metered.session, first.metered.spends⟩, ⟨first.chronicled.transaction, first.chronicled.noted⟩,
    first.disk, first.rewrites, first.view, first.tallied, first.located,
    first.cached⟩

end Local

/-- What is known before a run: that no system call was overridden, that no block or transaction is being
applied inside another, and that native code writes no nonce by itself. -/
structure Scope where
  strict : Prop := True
  calm : Prop := True
  free : Prop := False

/-- What a contract on the stack asks for is free. -/
abbrev Scope.under (scope : Scope) (stack : List StackFrame) : Scope :=
  { scope with free := Asked stack ∨ scope.free }

/-- What happens in a run with its part of the journal. -/
structure Logs (scope : Scope) (w : World Host) (new : List Incident) (w' : World Host) : Prop where
  stack : w'.stack = w.stack
  journal : w'.rest.journal = w.rest.journal ++ new
  grounded : Grounded w w'
  isolated : scope.calm → (∀ r ∈ new, r.Calm) → p.Local w new w'
  balanced : ∀ r ∈ new, r.Balanced p.codec
  rightful : scope.strict → (∀ r ∈ new, r.Plain) → ∀ r ∈ new, p.Rightful r
  asked : scope.free → ∀ r ∈ new, p.NonceAsked r

namespace Logs

variable {p}

theorem trans (first : p.Logs scope w new w') (second : p.Logs scope w' new' w'') :
    p.Logs scope w (new ++ new') w'' where
  stack := second.stack.trans first.stack
  journal := by rw [second.journal, first.journal, append_assoc]
  grounded := trans_of Grounded first.grounded second.grounded
  isolated := by
    intro holds calm
    rw [forall_mem_append] at calm
    exact (first.isolated holds calm.1).trans (second.isolated holds calm.2)
  balanced := forall_mem_append.mpr ⟨first.balanced, second.balanced⟩
  rightful := by
    intro holds plain
    rw [forall_mem_append] at plain ⊢
    exact ⟨first.rightful holds plain.1, second.rightful holds plain.2⟩
  asked holds := forall_mem_append.mpr ⟨first.asked holds, second.asked holds⟩

theorem mono {scope' : Scope} (logs : p.Logs scope w new w') (strict : scope'.strict → scope.strict)
    (calm : scope'.calm → scope.calm) (free : scope'.free → scope.free) : p.Logs scope' w new w' :=
  { logs with
    isolated holds := logs.isolated (calm holds)
    rightful holds := logs.rightful (strict holds)
    asked holds := logs.asked (free holds) }

end Logs

def Run (scope : Scope) (w w' : World Host) : Prop := ∃ new, p.Logs scope w new w'

theorem Run.stack {p : Platform} (run : p.Run scope w w') :
    w'.stack = w.stack := run.choose_spec.stack

theorem Run.trans {p : Platform} {w'' : World Host} (first : p.Run scope w w')
    (second : p.Run scope w' w'') : p.Run scope w w'' := by
  obtain ⟨new, logs⟩ := first
  obtain ⟨new', logs'⟩ := second
  exact ⟨new ++ new', logs.trans logs'⟩

theorem Run.mono {p : Platform} {scope' : Scope} (run : p.Run scope w w') (strict : scope'.strict → scope.strict)
    (calm : scope'.calm → scope.calm) (free : scope'.free → scope.free) : p.Run scope' w w' := by
  obtain ⟨new, logs⟩ := run
  exact ⟨new, logs.mono strict calm free⟩

/-- After a part with an override, the rules no longer matter. -/
theorem Logs.run {p : Platform} {w'' : World Host} {new : List Incident} (logs : p.Logs scope w new w')
    (rest : ∀ strict : Prop, (strict → ∀ r ∈ new, r.Plain) → p.Run { scope with strict := strict } w' w'') :
    p.Run scope w w'' := by
  by_cases holds : ∀ r ∈ new, r.Plain
  · exact Run.trans ⟨new, logs⟩ (rest scope.strict fun _ => holds)
  · obtain ⟨new', logs'⟩ := rest False False.elim
    -- An override before lifts the rules.
    have first : p.Logs { scope with strict := False } w new w' := logs.mono False.elim id id
    exact ⟨new ++ new', { first.trans logs' with
      rightful := fun _ plain => absurd (forall_mem_append.mp plain).1 holds }⟩

/-- A run under a condition on the stack. -/
def Within (scope : Scope) (pre : List StackFrame → Prop) (w w' : World Host) : Prop :=
  pre w.stack → p.Run (scope.under w.stack) w w'

section Still

/-- The world apart from the bandwidth of the meter, the chronicler, the caches and the journal. -/
structure Still (w w' : World Host) : Prop where
  heap : w'.heap = w.heap
  stateNode : w'.stateNode = w.stateNode
  parentNode : w'.parentNode = w.parentNode
  stack : w'.stack = w.stack
  mempoolNonce : w'.mempoolNonce = w.mempoolNonce
  receipt : w'.receipt = w.receipt
  detached : w'.detachedSessions = w.detachedSessions
  metered : Metered w w'
  chronicled : Chronicled w w'
  disk : w'.meter.diskStorageRemaining = w.meter.diskStorageRemaining

theorem Still.refl (w : World Host) : Still w w :=
  ⟨rfl, rfl, rfl, rfl, rfl, rfl, rfl, refl_of Metered w, refl_of Chronicled w, rfl⟩

theorem Still.of_charges {w w' : World Host} (charges : Charges w w') : Still w w' := by
  obtain ⟨metered, chronicled, disk, meter, chronicler, session, rfl⟩ := charges
  exact ⟨rfl, rfl, rfl, rfl, rfl, rfl, rfl, metered, chronicled, disk⟩

instance : IsPreorder (World Host) Still where
  refl := Still.refl
  trans _ _ _ first second :=
    ⟨second.heap.trans first.heap, second.stateNode.trans first.stateNode, second.parentNode.trans first.parentNode,
      second.stack.trans first.stack, second.mempoolNonce.trans first.mempoolNonce,
      second.receipt.trans first.receipt, second.detached.trans first.detached,
      trans_of Metered first.metered second.metered, trans_of Chronicled first.chronicled second.chronicled,
      second.disk.trans first.disk⟩

variable {p}

/-- The caches, the results and the journal do not matter. -/
theorem Still.setRest (still : Still w w') (rest : Host) : Still w { w' with rest := rest } :=
  ⟨still.heap, still.stateNode, still.parentNode, still.stack, still.mempoolNonce, still.receipt, still.detached,
    ⟨still.metered.session, still.metered.spends⟩, ⟨still.chronicled.transaction, still.chronicled.noted⟩,
    still.disk⟩

theorem Still.grounded (still : Still w w') : Grounded w w' :=
  .of_eq still.heap still.stateNode

/-- A step that fills caches, or notes something other than a write. -/
theorem Still.local (still : Still w w') (unwritten : ∀ write, .wrote write ∉ new)
    (cached : p.Cached (p.parentObjects w) w.rest →
      p.Cached (p.parentObjects w) w'.rest ∧ ∀ r ∈ new, p.Faithful (p.parentObjects w) r) : p.Local w new w' := by
  have quiet := replay_of_unwritten p.codec unwritten (w.heap.find w.stateNode)
  exact { still with
    disk := still.disk ▸ diskSpent_of_unwritten unwritten _
    rewrites := still.heap ▸ .refl _ _
    view := fun _ => by rw [still.heap, quiet.1]
    tallied := fun _ => quiet.2
    located := fun write mem => (unwritten write mem).elim
    cached := fun _ => cached }

/-- Nothing is noted and the caches stay, or are filled. -/
theorem Still.logs {scope : Scope} (still : Still w w') (journal : w'.rest.journal = w.rest.journal)
    (cached : p.Cached (p.parentObjects w) w.rest → p.Cached (p.parentObjects w) w'.rest) : p.Logs scope w [] w' where
  stack := still.stack
  journal := by rw [journal, append_nil]
  grounded := still.grounded
  isolated _ _ := still.local (fun _ => not_mem_nil) fun sound => ⟨cached sound, by simp⟩
  balanced := by simp
  rightful := by simp
  asked := by simp

end Still

theorem Run.refl {p : Platform} (w : World Host) : p.Run scope w w :=
  ⟨[], (Still.refl w).logs rfl id⟩

instance (scope : Scope) (pre : List StackFrame → Prop) : IsPreorder (World Host) (p.Within scope pre) where
  refl w _ := .refl w
  trans := by
    intro w w' w'' first second holds
    have run := first holds
    have same : w'.stack = w.stack := run.stack
    rw [Within, same] at second
    exact run.trans (second holds)

end Platform

end Teleno.Chain
