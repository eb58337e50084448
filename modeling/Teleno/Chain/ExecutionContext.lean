import Teleno.Library.Exec
import Teleno.StateDb.StateNode
import Teleno.Chain.ResourceMeter

/-! # Execution context

`World` is what system calls and contracts see and change: the state nodes, the call stack, the current
block, transaction and operation, the meter, the chronicler, the payer session and the receipt, and in
`rest` everything that applying blocks never looks at itself (call results, the other caches). The
failed transaction indices are only accessed by the thunk that applies blocks and by the controller,
which run on a `BlockContext`. The intent never changes and is an argument.
-/

namespace Teleno.Chain

open Library StateDb

inductive Privilege where
  | kernelMode
  | userMode
deriving DecidableEq

inductive Intent where
  | readOnly
  | blockApplication
  | transactionApplication
  | blockProposal
deriving DecidableEq

/-- The fields of `stack_frame` that only the frame of a contract sets. -/
structure ContractCall where
  contractId : Bytes
  callArgs : Bytes
  entryPoint : UInt32
deriving DecidableEq

/-- `stack_frame`. The frame of a system call leaves the other fields at their defaults. -/
structure StackFrame where
  callPrivilege : Privilege
  contract : Option ContractCall := none
deriving DecidableEq

namespace StackFrame

variable (frame : StackFrame)

def contractId : Bytes := frame.contract.elim [] (·.contractId)

def callArgs : Bytes := frame.contract.elim [] (·.callArgs)

def entryPoint : UInt32 := frame.contract.elim 0 (·.entryPoint)

/-- The frame of a system call. -/
def systemCall : StackFrame := { callPrivilege := .kernelMode }

end StackFrame

/-- The part of `execution_context` that system calls see. State nodes are addresses of deltas, and
the innermost stack frame comes first. A transaction applied inside another one takes the meter and the
chronicler away from the session of the outer one, which is then in `detachedSessions`. -/
structure World (σ : Type) where
  heap : Heap
  stateNode : ℕ
  parentNode : Option ℕ
  stack : List StackFrame
  block : Option Block := none
  transaction : Option Transaction := none
  operation : Option Operation := none
  mempoolNonce : Option Bytes := none
  meter : ResourceMeter := .initial
  chronicler : Chronicler := {}
  session : Option PayerSession := none
  detachedSessions : List PayerSession := []
  blockHashCode : Option ℕ := none
  receipt : Receipt := .none
  rest : σ

/-- The whole of `execution_context`, apart from the intent. -/
structure BlockContext (σ : Type) where
  world : World σ
  failedTransactionIndices : List ℕ := []

abbrev WorldM (σ : Type) := EStateM ChainException (World σ)

abbrev BlockM (σ : Type) := EStateM ChainException (BlockContext σ)

variable {σ α : Type}

namespace World

section Access

variable (w : World σ)

/-- `set_state_node`; without an explicit parent the node's own parent is used. -/
def setStateNode (node : ℕ) (parent : Option ℕ := none) : World σ :=
  { w with stateNode := node, parentNode := parent.or (w.heap.cell node).parent }

/-- `get_parent_node`; the genesis state has no parent. -/
def getParentNode : ℕ := w.parentNode.getD w.stateNode

/-- The second frame from the top. -/
def caller : Option StackFrame := w.stack.tail.head?

/-- Outside of any call the caller is the system. -/
def getCaller : Bytes := w.caller.elim [] (·.contractId)

def getCallerPrivilege : Privilege := w.caller.elim .kernelMode (·.callPrivilege)

def getCallerEntryPoint : UInt32 := w.caller.elim 0 (·.entryPoint)

/-- The innermost contract with an id. -/
def getContractId : Bytes := ((w.stack.map (·.contractId)).find? (! ·.isEmpty)).getD []

def popFrame : World σ := { w with stack := w.stack.tail }

def setTopPrivilege (privilege : Privilege) : World σ :=
  match w.stack with
  | [] => w
  | frame :: rest => { w with stack := { frame with callPrivilege := privilege } :: rest }

end Access

def stackLimit : ℕ := 256

def pushFrame (frame : StackFrame) : WorldM σ Unit := do
  Exec.require ((← get).stack.length < stackLimit)
    ⟨.reversion .reversion, text "apply context stack overflow", []⟩
  modify fun w => { w with stack := frame :: w.stack }

variable {w : World σ}

theorem pushFrame_of_lt (frame : StackFrame) (room : w.stack.length < stackLimit) :
    pushFrame frame w = .ok () { w with stack := frame :: w.stack } := by
  rw [pushFrame, Exec.get_bind, decide_eq_true room]
  rfl

theorem pushFrame_of_not_lt (frame : StackFrame) (full : ¬ w.stack.length < stackLimit) :
    ∃ e, pushFrame frame w = .error e w := by
  rw [pushFrame, Exec.get_bind, decide_eq_false full]
  exact ⟨_, rfl⟩

def stackEmpty (message : String) : ChainException := ⟨.reversion .internalError, text message, []⟩

/-- `pop_frame` with its result. -/
def takeFrame : WorldM σ StackFrame := do
  match (← get).stack with
  | [] => throw (stackEmpty "stack is empty")
  | frame :: _ =>
    modify popFrame
    pure frame

def getPrivilege : WorldM σ Privilege := do
  match (← get).stack with
  | [] => throw (stackEmpty "stack empty")
  | frame :: _ => pure frame.callPrivilege

def withStackFrame (frame : StackFrame) (body : WorldM σ α) : WorldM σ α := do
  pushFrame frame
  Exec.bracket popFrame body

/-- A body that returns in a frame of its own. -/
theorem withStackFrame_eq_ok {frame : StackFrame} {body : WorldM σ α} {w' : World σ} {a : α}
    (ok : withStackFrame frame body w = .ok a w') :
    w.stack.length < stackLimit ∧ ∃ t, body { w with stack := frame :: w.stack } = .ok a t ∧ w' = t.popFrame := by
  by_cases room : w.stack.length < stackLimit
  · rw [withStackFrame, Exec.bind_of_ok (pushFrame_of_lt frame room)] at ok
    exact ⟨room, Exec.within_eq_ok ok⟩
  · obtain ⟨e, err⟩ := pushFrame_of_not_lt frame room
    rw [withStackFrame, Exec.bind_of_error err] at ok
    contradiction

def withPrivilege (privilege : Privilege) (body : WorldM σ α) : WorldM σ α := do
  let before ← getPrivilege
  modify (setTopPrivilege · privilege)
  Exec.bracket (setTopPrivilege · before) body

/-- Use a resource of the meter on behalf of the session. -/
def useResource
    (use : ResourceMeter → Option PayerSession → Except ChainException (ResourceMeter × Option PayerSession)) :
    WorldM σ Unit := do
  let w ← get
  match use w.meter w.session with
  | .ok used => set { w with meter := used.1, session := used.2 }
  | .error e => throw e

theorem useResource_of_ok
    {use : ResourceMeter → Option PayerSession → Except ChainException (ResourceMeter × Option PayerSession)}
    {used : ResourceMeter × Option PayerSession} (accepted : use w.meter w.session = .ok used) :
    useResource use w = .ok () { w with meter := used.1, session := used.2 } := by
  rw [useResource, Exec.get_bind, accepted]
  rfl

theorem useResource_of_error
    {use : ResourceMeter → Option PayerSession → Except ChainException (ResourceMeter × Option PayerSession)}
    {e : ChainException} (refused : use w.meter w.session = .error e) : useResource use w = .error e w := by
  rw [useResource, Exec.get_bind, refused]
  rfl

def useNetworkBandwidth (bytes : Int64) : WorldM σ Unit := useResource (·.useNetworkBandwidth · bytes)

def useComputeBandwidth (ticks : Int64) : WorldM σ Unit := useResource (·.useComputeBandwidth · ticks)

def useDiskStorage (bytes : Int64) : WorldM σ Unit := useResource (·.useDiskStorage · bytes)

def pushLog (message : Bytes) : WorldM σ Unit := modify fun w =>
  let pushed := w.chronicler.pushLog w.session message
  { w with chronicler := pushed.1, session := pushed.2 }

def pushEvent (event : EventData) : WorldM σ Unit := modify fun w =>
  let pushed := w.chronicler.pushEvent w.session (w.transaction.map (·.id)) event
  { w with chronicler := pushed.1, session := pushed.2 }

/-- `create_anonymous_node` and the switch to it. The result is the node's delta. -/
def enterAnonymousNode : WorldM σ ℕ := do
  let w ← get
  let entered := { w with heap := w.heap.makeChild w.stateNode [] {} }
  set (entered.setStateNode w.heap.size (w.heap.cell w.stateNode).parent)
  pure w.heap.size

/-- `anonymous_state_node::commit` on a node created from `owner`. -/
def commitAnonymousNode (owner node : ℕ) : WorldM σ Unit := do
  Exec.require (!((← get).heap.cell owner).finalized)
    ⟨.reversion (.stateDb .nodeFinalized), text "cannot commit to a finalized node", []⟩
  modify fun w => { w with heap := (w.heap.squash node).makeChild node [] {} }

end World

namespace BlockContext

/-- The context of `controller::apply_block` once its frame, node and caches are set. -/
def ofBlockNode (heap : Heap) (blockNode : ℕ) (rest : σ) : BlockContext σ where
  world :=
    { heap := heap
      stateNode := blockNode
      parentNode := (heap.cell blockNode).parent
      stack := [.systemCall]
      rest := rest }

def setWorld (world : World σ) (ctx : BlockContext σ) : BlockContext σ := { ctx with world := world }

/-- Run a program that does not concern the failed transaction indices. -/
abbrev onWorld (program : WorldM σ α) : BlockM σ α := Exec.focus world setWorld program

def addFailedTransactionIndex (i : ℕ) : BlockM σ Unit :=
  modify fun ctx => { ctx with failedTransactionIndices := ctx.failedTransactionIndices ++ [i] }

end BlockContext

end Teleno.Chain
