import Teleno.Library.Machine
import Teleno.StateDb.Lookup

/-! # State nodes and their anonymous children

A node gives access to the objects of its delta through serialized database keys. Anonymous nodes
collect the writes of a transaction in a delta of their own; committing one squashes that delta
into its parent delta and continues on a child of the squashed one. A `Session` is a writable
child of some parent node together with every anonymous node created below it.
-/

namespace Teleno.StateDb

open Library List Option

namespace Heap

variable (codec : KeyCodec) (h : Heap) (p : ℕ)

def getObject (space : ObjectSpace) (key : Bytes) : Option Bytes :=
  h.find p (codec.serialize ⟨space, key⟩)

/-- Write an object; the result is the change in the number of bytes used. -/
def putObject (space : ObjectSpace) (key value : Bytes) : Except StateDbError (ℤ × Heap) :=
  if (h.cell p).finalized then .error .nodeFinalized else
  let keyString := codec.serialize ⟨space, key⟩
  let freed : ℤ := match h.find p keyString with
    | some old => -(old.length : ℤ)
    | none => keyString.length
  .ok (freed + value.length, h.put p keyString value)

/-- `remove_object`, and with `preserveTombstone` the `remove_object_preserve_tombstone` of replay. -/
def removeObject (space : ObjectSpace) (key : Bytes) (preserveTombstone : Bool) :
    Except StateDbError (ℤ × Heap) :=
  if (h.cell p).finalized then .error .nodeFinalized else
  let keyString := codec.serialize ⟨space, key⟩
  let freed : ℤ := match h.find p keyString with
    | some old => -(old.length : ℤ) - keyString.length
    | none => 0
  .ok (freed, h.erase p keyString preserveTombstone)

theorem size_squash : (h.squash p).size = h.size := by
  rw [squash]
  split <;> rfl

def pendingMerkleRoot (crypto : Crypto) : Multihash := (h.cell p).calculateMerkleRoot crypto

end Heap

/-- A `state_node`, or an `anonymous_state_node` with the node it was created from. -/
structure NodeHandle where
  parent : Option ℕ
  state : ℕ
deriving DecidableEq

/-- Node handles over one heap. -/
structure Session where
  heap : Heap
  nodes : List NodeHandle

/-- Calls on the nodes of a session, which are named by their position. -/
inductive NodeOp where
  | putObject (node : ℕ) (space : ObjectSpace) (key value : Bytes)
  | removeObject (node : ℕ) (space : ObjectSpace) (key : Bytes) (preserveTombstone : Bool)
  | createAnonymousNode (node : ℕ)
  | commit (node : ℕ)
  | reset (node : ℕ)
deriving DecidableEq

namespace Session

/-- A session starts on a fresh writable child. -/
def start (h : Heap) (p : ℕ) (id : Multihash) (header : BlockHeader) : Session :=
  ⟨h.makeChild p id header, [⟨none, h.size⟩]⟩

/-- Only anonymous nodes can be committed or reset; the parent must still be writable to commit. -/
def apply (codec : KeyCodec) (s : Session) : NodeOp → Except StateDbError Session
  | .putObject i space key value => do
    let node ← s.nodes[i]?.elim (.error .illegalArgument) .ok
    let (_, heap) ← s.heap.putObject codec node.state space key value
    .ok { s with heap }
  | .removeObject i space key preserveTombstone => do
    let node ← s.nodes[i]?.elim (.error .illegalArgument) .ok
    let (_, heap) ← s.heap.removeObject codec node.state space key preserveTombstone
    .ok { s with heap }
  | .createAnonymousNode i => do
    let node ← s.nodes[i]?.elim (.error .illegalArgument) .ok
    .ok ⟨s.heap.makeChild node.state [] {}, s.nodes ++ [⟨some i, s.heap.size⟩]⟩
  | .commit i => do
    let node ← s.nodes[i]?.elim (.error .illegalArgument) .ok
    let parent ← (node.parent.bind (s.nodes[·]?)).elim (.error .illegalArgument) .ok
    if (s.heap.cell parent.state).finalized then .error .nodeFinalized else
    .ok ⟨(s.heap.squash node.state).makeChild node.state [] {},
      s.nodes.set i { node with state := s.heap.size }⟩
  | .reset i => do
    let node ← s.nodes[i]?.elim (.error .illegalArgument) .ok
    if node.parent.isNone then .error .illegalArgument else
    .ok ⟨s.heap.makeChild node.state [] {}, s.nodes.set i { node with state := s.heap.size }⟩

/-- What a call that returns has done. -/
inductive Effect (codec : KeyCodec) (s : Session) : NodeOp → Session → Prop
  | put {i : ℕ} {node : NodeHandle} {space : ObjectSpace} {key value : Bytes}
      (found : s.nodes[i]? = some node) (writable : (s.heap.cell node.state).finalized = false) :
      Effect codec s (.putObject i space key value)
        { s with heap := s.heap.put node.state (codec.serialize ⟨space, key⟩) value }
  | remove {i : ℕ} {node : NodeHandle} {space : ObjectSpace} {key : Bytes} {preserveTombstone : Bool}
      (found : s.nodes[i]? = some node) (writable : (s.heap.cell node.state).finalized = false) :
      Effect codec s (.removeObject i space key preserveTombstone)
        { s with heap := s.heap.erase node.state (codec.serialize ⟨space, key⟩) preserveTombstone }
  | create {i : ℕ} {node : NodeHandle} (found : s.nodes[i]? = some node) :
      Effect codec s (.createAnonymousNode i)
        ⟨s.heap.makeChild node.state [] {}, s.nodes ++ [⟨some i, s.heap.size⟩]⟩
  | commit {i j : ℕ} {node parent : NodeHandle} (found : s.nodes[i]? = some node)
      (below : node.parent = some j) (owner : s.nodes[j]? = some parent)
      (writable : (s.heap.cell parent.state).finalized = false) :
      Effect codec s (.commit i) ⟨(s.heap.squash node.state).makeChild node.state [] {},
        s.nodes.set i { node with state := s.heap.size }⟩
  | reset {i : ℕ} {node : NodeHandle} (found : s.nodes[i]? = some node) (below : node.parent ≠ none) :
      Effect codec s (.reset i)
        ⟨s.heap.makeChild node.state [] {}, s.nodes.set i { node with state := s.heap.size }⟩

private theorem found_of_bind {α β : Type} {found? : Option α} {next : α → Except StateDbError β} {b : β}
    (ok : (found?.elim (.error .illegalArgument) .ok >>= next) = .ok b) : ∃ a, found? = some a ∧ next a = .ok b := by
  cases found? with
  | none => cases ok
  | some a => exact ⟨a, rfl, ok⟩

theorem effect_of_apply {codec : KeyCodec} {s t : Session} {op : NodeOp}
    (ok : s.apply codec op = .ok t) : Effect codec s op t := by
  cases op with
  | putObject i space key value =>
    obtain ⟨node, found, writes⟩ := found_of_bind ok
    cases writable : (s.heap.cell node.state).finalized with
    | true =>
      simp only [Heap.putObject, writable, if_true] at writes
      cases writes
    | false =>
      simp only [Heap.putObject, writable, Bool.false_eq_true, if_false] at writes
      cases writes
      exact .put found writable
  | removeObject i space key preserveTombstone =>
    obtain ⟨node, found, writes⟩ := found_of_bind ok
    cases writable : (s.heap.cell node.state).finalized with
    | true =>
      simp only [Heap.removeObject, writable, if_true] at writes
      cases writes
    | false =>
      simp only [Heap.removeObject, writable, Bool.false_eq_true, if_false] at writes
      cases writes
      exact .remove found writable
  | createAnonymousNode i =>
    obtain ⟨node, found, creates⟩ := found_of_bind ok
    cases creates
    exact .create found
  | commit i =>
    obtain ⟨node, found, commits⟩ := found_of_bind ok
    obtain ⟨parent, linked, commits⟩ := found_of_bind commits
    obtain ⟨j, below, owner⟩ := bind_eq_some_iff.mp linked
    cases writable : (s.heap.cell parent.state).finalized with
    | true =>
      simp only [writable, if_true] at commits
      cases commits
    | false =>
      simp only [writable, Bool.false_eq_true, if_false] at commits
      cases commits
      exact .commit found below owner writable
  | reset i =>
    obtain ⟨node, found, resets⟩ := found_of_bind ok
    cases below : node.parent.isNone with
    | true =>
      simp only [below, if_true] at resets
      cases resets
    | false =>
      simp only [below, Bool.false_eq_true, if_false] at resets
      cases resets
      exact .reset found (fun absent => by simp [absent] at below)

end Session

/-- All runs of calls on a fresh writable child of `p`. -/
def sessionMachine (codec : KeyCodec) (h : Heap) (p : ℕ) (id : Multihash) (header : BlockHeader) :
    Machine Session NodeOp where
  init s := s = .start h p id header
  step s op t := s.apply codec op = .ok t

/-- A delta below a session's parent: its own backend, and only serialized database keys in it. -/
structure StateDelta.Keyed (codec : KeyCodec) (d : StateDelta) : Prop where
  held : d.backend.isSome
  inner : d.parent ≠ none
  named : ∀ k, (d.get k).isSome ∨ d.isRemoved k = true → ∃ key, codec.serialize key = k

namespace StateDelta.Keyed

variable {codec : KeyCodec} {d : StateDelta}

theorem put (keyed : d.Keyed codec) (key : DatabaseKey) (value : Bytes) :
    (d.put (codec.serialize key) value).Keyed codec where
  held := by rw [StateDelta.put, isSome_map]; exact keyed.held
  inner := keyed.inner
  named := by
    intro k present
    rw [get_put keyed.held, isRemoved_put] at present
    split_ifs at present with same
    · exact ⟨key, same⟩
    · exact keyed.named k present

theorem remove (keyed : d.Keyed codec) (key : DatabaseKey) : (d.remove (codec.serialize key)).Keyed codec where
  held := by rw [StateDelta.remove, isSome_map]; exact keyed.held
  inner := keyed.inner
  named := by
    intro k present
    rw [get_remove, isRemoved_remove, Bool.or_eq_true, decide_eq_true_iff] at present
    split_ifs at present with same
    · exact ⟨key, same⟩
    · exact keyed.named k (present.imp_right (·.resolve_left same))

theorem absorb (keyed : d.Keyed codec) {child : StateDelta} (keyed' : child.Keyed codec) :
    (d.absorb child).Keyed codec where
  held := by rw [absorb_eq, isSome_map]; exact keyed.held
  inner := by rw [absorb_parent]; exact keyed.inner
  named := by
    intro k present
    rw [get_absorb keyed.held, isRemoved_absorb keyed.inner, Bool.and_eq_true, Bool.or_eq_true] at present
    by_cases written : (child.get k).isSome
    · exact keyed'.named k (.inl written)
    by_cases removed : child.isRemoved k = true
    · exact keyed'.named k (.inr removed)
    rw [not_isSome_iff_eq_none] at written
    refine keyed.named k ?_
    rcases present with live | ⟨tombstone, -⟩
    · rw [written, none_or, if_neg removed] at live
      exact .inl live
    · exact .inr (tombstone.resolve_right removed)

theorem makeChild (d : StateDelta) (q : ℕ) (id : Multihash) (header : BlockHeader) :
    (d.makeChild q id header).Keyed codec where
  held := rfl
  inner := some_ne_none q
  named := by
    intro k present
    simp [StateDelta.makeChild, get, objects, isRemoved] at present

end StateDelta.Keyed

/-- A session only touches the deltas allocated since it started. -/
structure Session.Confined (codec : KeyCodec) (h : Heap) (p : ℕ) (s : Session) : Prop where
  grown : h.size < s.heap.size
  frame : ∀ q < h.size, s.heap.cell q = h.cell q
  child : (s.heap.cell h.size).parent = some p
  keyed : ∀ q, h.size ≤ q → q < s.heap.size → (s.heap.cell q).Keyed codec
  nodes : ∀ node ∈ s.nodes, node.state < s.heap.size ∧ h.size ∈ s.heap.path node.state ∧
    (node.state = h.size ↔ node.parent = none)

namespace Session.Confined

variable {codec : KeyCodec} {h : Heap} {p : ℕ} {s : Session}

theorem start (bound : p < h.size) (id : Multihash) (header : BlockHeader) :
    (Session.start h p id header).Confined codec h p := by
  have linked : ∀ j, ((h.cell p).makeChild p id header).parent = some j → j < h.size := by
    rintro j ⟨⟩
    exact bound
  have cells (q : ℕ) : (Session.start h p id header).heap.cell q =
      if q = h.size then (h.cell p).makeChild p id header else h.cell q := h.cell_push linked q
  have size : (Session.start h p id header).heap.size = h.size + 1 := h.size_push linked
  constructor
  case grown => omega
  case frame => exact fun q below => by rw [cells, if_neg below.ne]
  case child => rw [cells, if_pos rfl]; rfl
  case keyed =>
    intro q above below
    obtain rfl : q = h.size := by omega
    rw [cells, if_pos rfl]
    exact .makeChild _ _ _ _
  case nodes =>
    intro node mem
    obtain rfl := mem_singleton.mp mem
    exact ⟨size ▸ Nat.lt_succ_self h.size, LinkedStore.self_mem_path _ _, by simp⟩

variable {node : NodeHandle}

section

variable (confined : s.Confined codec h p)

include confined

theorem state_ge (mem : node ∈ s.nodes) : h.size ≤ node.state :=
  s.heap.le_of_mem_path (confined.nodes node mem).2.1

/-- Rewriting the contents of one delta of the session. -/
theorem modify {q : ℕ} {f : StateDelta → StateDelta} {keeps}
    (above : h.size ≤ q) (kept : (f (s.heap.cell q)).parent = (s.heap.cell q).parent)
    (keyed : (f (s.heap.cell q)).Keyed codec) :
    Confined codec h p { s with heap := s.heap.modify q f keeps } := by
  constructor
  case grown => exact confined.grown
  case frame =>
    intro r below
    rw [s.heap.cell_modify_of_ne f keeps (by omega)]
    exact confined.frame r below
  case child =>
    rw [s.heap.cell_modify]
    split_ifs with same
    · rw [kept, ← same]
      exact confined.child
    · exact confined.child
  case keyed =>
    intro r above' below
    rw [s.heap.cell_modify]
    split
    · exact keyed
    · exact confined.keyed r above' below
  case nodes =>
    intro node mem
    rw [s.heap.path_modify kept]
    exact confined.nodes node mem

/-- A new delta below a node of the session, and handles that are old or point to it. -/
theorem makeChild (mem : node ∈ s.nodes) {nodes : List NodeHandle} (handles : ∀ node' ∈ nodes, node' ∈ s.nodes ∨
      node'.state = s.heap.size ∧ node'.parent ≠ none) :
    Confined codec h p ⟨s.heap.makeChild node.state [] {}, nodes⟩ := by
  obtain ⟨bound, through, -⟩ := confined.nodes node mem
  have grown := confined.grown
  have linked : ∀ j, ((s.heap.cell node.state).makeChild node.state [] {}).parent = some j →
      j < s.heap.size := by
    rintro j ⟨⟩
    exact bound
  have cells (q : ℕ) : (s.heap.makeChild node.state [] {}).cell q = if q = s.heap.size then
      (s.heap.cell node.state).makeChild node.state [] {} else s.heap.cell q := s.heap.cell_push linked q
  have size : (s.heap.makeChild node.state [] {}).size = s.heap.size + 1 := s.heap.size_push linked
  constructor
  case grown => exact size ▸ grown.trans (Nat.lt_succ_self _)
  case frame =>
    intro q below
    rw [cells, if_neg (by omega)]
    exact confined.frame q below
  case child =>
    rw [cells, if_neg (by omega)]
    exact confined.child
  case keyed =>
    intro q above below
    rw [cells]
    split
    · exact .makeChild _ _ _ _
    · exact confined.keyed q above (by rw [size] at below; omega)
  case nodes =>
    intro node' mem'
    rcases handles node' mem' with old | ⟨fresh, anonymous⟩
    · obtain ⟨bound', through', self⟩ := confined.nodes node' old
      refine ⟨by rw [size]; omega, ?_, self⟩
      rw [Heap.makeChild, s.heap.path_push linked bound']
      exact through'
    · refine ⟨by rw [size, fresh]; omega, ?_, iff_of_false (by omega) anonymous⟩
      rw [fresh, Heap.makeChild, s.heap.path_push_self rfl bound]
      exact mem_cons_of_mem _ through

theorem squash (mem : node ∈ s.nodes)
    (anonymous : node.parent ≠ none) : Confined codec h p { s with heap := s.heap.squash node.state } := by
  obtain ⟨bound, through, self⟩ := confined.nodes node mem
  have keyed := confined.keyed node.state (confined.state_ge mem) bound
  obtain ⟨q, up⟩ := ne_none_iff_exists'.mp keyed.inner
  have above : h.size ∈ s.heap.path q := s.heap.mem_path_link up through (fun same => anonymous (self.mp same.symm))
  simp only [Heap.squash, up]
  refine confined.modify (s.heap.le_of_mem_path above) (StateDelta.absorb_parent _ _) ?_
  exact (confined.keyed q (s.heap.le_of_mem_path above) ((s.heap.descending _ _ up).trans bound)).absorb keyed

theorem step {op : NodeOp} {t : Session} (effect : Effect codec s op t) : t.Confined codec h p := by
  cases effect with
  | put found writable =>
    have mem := mem_of_getElem? found
    exact confined.modify (confined.state_ge mem) rfl
      ((confined.keyed _ (confined.state_ge mem) (confined.nodes _ mem).1).put _ _)
  | remove found writable =>
    have mem := mem_of_getElem? found
    rw [Heap.erase]
    split
    · exact confined.modify (confined.state_ge mem) rfl
        ((confined.keyed _ (confined.state_ge mem) (confined.nodes _ mem).1).remove _)
    · exact confined
  | create found =>
    refine confined.makeChild (mem_of_getElem? found) ?_
    intro node' mem
    rcases mem_append.mp mem with old | fresh
    · exact .inl old
    · obtain rfl := mem_singleton.mp fresh
      exact .inr ⟨rfl, some_ne_none _⟩
  | commit found below owner writable =>
    have mem := mem_of_getElem? found
    have anonymous := below ▸ some_ne_none _
    have squashed := confined.squash mem anonymous
    refine squashed.makeChild mem ?_
    intro node' mem'
    rcases mem_or_eq_of_mem_set mem' with old | rfl
    · exact .inl old
    · exact .inr ⟨(s.heap.size_squash _).symm, anonymous⟩
  | reset found below =>
    refine confined.makeChild (mem_of_getElem? found) ?_
    intro node' mem
    rcases mem_or_eq_of_mem_set mem with old | rfl
    · exact .inl old
    · exact .inr ⟨rfl, below⟩

end

end Session.Confined

/-- Every run of a session stays confined to it. -/
theorem confined_of_reachable {codec : KeyCodec} {h : Heap} {p : ℕ} {id : Multihash} {header : BlockHeader}
    {guard : Session → NodeOp → Prop} {s : Session} (bound : p < h.size)
    (reached : (sessionMachine codec h p id header).Reachable guard s) : s.Confined codec h p := by
  refine reached.invariant ?_ ?_
  · rintro s rfl
    exact .start bound id header
  · intro s op t confined _ moves
    exact confined.step (Session.effect_of_apply moves)

end Teleno.StateDb
