import Mathlib.Data.List.Induction
import Teleno.StateDb.View

/-! # Repeated commits and resets of an anonymous node

`commit` squashes the delta of an anonymous node into the delta above it, and `reset` continues on a child of the
current delta. The delta above is the parent's only until the first of these calls. From then on a commit reaches a
delta that the parent does not look at, and a reset keeps what was written.
-/

namespace Teleno.StateDb

open Library

/-- Calls on one anonymous node. -/
inductive AnonymousCall where
  | putObject (space : ObjectSpace) (key value : Bytes)
  | removeObject (space : ObjectSpace) (key : Bytes) (preserveTombstone : Bool)
  | commit
  | reset
deriving DecidableEq

/-- The anonymous node comes second in its session. -/
def AnonymousCall.op : AnonymousCall → NodeOp
  | putObject space key value => .putObject 1 space key value
  | removeObject space key preserveTombstone => .removeObject 1 space key preserveTombstone
  | commit => .commit 1
  | reset => .reset 1

/-- It starts a new delta or publishes the current one. -/
def AnonymousCall.turns : AnonymousCall → Bool
  | commit | reset => true
  | _ => false

namespace Session

/-- A node on a delta, and an anonymous node that was created from it. -/
def anonymous (h : Heap) (p : ℕ) : Session := ⟨h.makeChild p [] {}, [⟨none, p⟩, ⟨some 0, h.size⟩]⟩

def next (codec : KeyCodec) (s : Session) (call : AnonymousCall) : Session :=
  match s.apply codec call.op with
  | .ok t => t
  | .error _ => s

def afterCalls (codec : KeyCodec) (h : Heap) (p : ℕ) (calls : List AnonymousCall) : Session :=
  calls.foldl (next codec) (anonymous h p)

/-- What the node at a position shows. -/
def view (s : Session) (i : ℕ) : View := fun key => s.nodes[i]?.bind fun node => s.heap.find node.state key

end Session

/-- A commit shows on the parent what the anonymous node showed, and nothing else changes the parent. After a reset
both show the same. -/
structure Publishes (s : Session) (call : AnonymousCall) (t : Session) : Prop where
  commit : call = .commit → t.view 0 = s.view 1
  reset : call = .reset → t.view 1 = t.view 0
  only : call ≠ .commit → t.view 0 = s.view 0

namespace Session

variable {codec : KeyCodec} {p a q : ℕ} {turned : Bool} {s : Session}

/-- Where the anonymous node stands: right below the parent, or further down after the first turn. -/
structure Placed (p a q : ℕ) (turned : Bool) (s : Session) : Prop where
  nodes : s.nodes = [⟨none, p⟩, ⟨some 0, a⟩]
  bound : a < s.heap.size
  linked : (s.heap.cell a).parent = some q
  below : if turned then p < q else q = p
  writable : (s.heap.cell p).finalized = false
  unfinalized : (s.heap.cell a).finalized = false
  held : (s.heap.cell a).backend.isSome
  holds : (s.heap.cell q).backend.isSome

/-- Objects in a lower delta do not show. -/
theorem find_of_lower {h h' : Heap} {r : ℕ} (rewrites : h.Rewrites r h') (lower : p < r) : h'.find p = h.find p := by
  apply rewrites.find_of_not_mem
  intro mem
  have above := h.le_of_mem_path mem
  omega

namespace Placed

section

variable (placed : Placed p a q turned s)

include placed

theorem le : p ≤ q := by
  have below := placed.below
  split_ifs at below <;> omega

theorem lt : p < a := by
  have above := s.heap.descending a q placed.linked
  have le := placed.le
  omega

theorem view_zero : s.view 0 = s.heap.find p := by
  funext key
  rw [view, placed.nodes]
  rfl

theorem view_one : s.view 1 = s.heap.find a := by
  funext key
  rw [view, placed.nodes]
  rfl

end

theorem start {h : Heap} (bound : p < h.size) (writable : (h.cell p).finalized = false)
    (held : (h.cell p).backend.isSome) : Placed p h.size p false (anonymous h p) := by
  have links : ∀ j, ((h.cell p).makeChild p [] {}).parent = some j → j < h.size := by
    rintro j ⟨⟩
    exact bound
  have cell (r : ℕ) : (anonymous h p).heap.cell r = if r = h.size then (h.cell p).makeChild p [] {} else h.cell r :=
    h.cell_push links r
  have size : (anonymous h p).heap.size = h.size + 1 := h.size_push links
  constructor
  case nodes => rfl
  case bound => omega
  case linked => rw [cell, if_pos rfl]; rfl
  case below => rfl
  case writable => rw [cell, if_neg bound.ne]; exact writable
  case unfinalized => rw [cell, if_pos rfl]; rfl
  case held => rw [cell, if_pos rfl]; rfl
  case holds => rw [cell, if_neg bound.ne]; exact held

/-- Other objects in one delta leave the anonymous node where it is. -/
theorem rewrite (placed : Placed p a q turned s) {r : ℕ} {h : Heap} (rewrites : s.heap.Rewrites r h) :
    Placed p a q turned { s with heap := h } where
  nodes := placed.nodes
  bound := by rw [rewrites.size_eq]; exact placed.bound
  linked := by rw [(rewrites.cell_frame a).parent_eq]; exact placed.linked
  below := placed.below
  writable := by rw [(rewrites.cell_frame p).finalized_eq]; exact placed.writable
  unfinalized := by rw [(rewrites.cell_frame a).finalized_eq]; exact placed.unfinalized
  held := by rw [(rewrites.cell_frame a).held_eq]; exact placed.held
  holds := by rw [(rewrites.cell_frame q).held_eq]; exact placed.holds

/-- A turn goes one delta down. -/
theorem turn (placed : Placed p a q turned s) :
    Placed p s.heap.size a true ⟨s.heap.makeChild a [] {}, [⟨none, p⟩, ⟨some 0, s.heap.size⟩]⟩ := by
  have bound := placed.bound
  have lt := placed.lt
  have links : ∀ j, ((s.heap.cell a).makeChild a [] {}).parent = some j → j < s.heap.size := by
    rintro j ⟨⟩
    exact bound
  have cell (r : ℕ) : (s.heap.makeChild a [] {}).cell r =
      if r = s.heap.size then (s.heap.cell a).makeChild a [] {} else s.heap.cell r := s.heap.cell_push links r
  have size : (s.heap.makeChild a [] {}).size = s.heap.size + 1 := s.heap.size_push links
  constructor
  case nodes => rfl
  case bound => exact size ▸ Nat.lt_succ_self _
  case linked => rw [cell, if_pos rfl]; rfl
  case below => exact lt
  case writable => rw [cell, if_neg (by omega)]; exact placed.writable
  case unfinalized => rw [cell, if_pos rfl]; rfl
  case held => rw [cell, if_pos rfl]; rfl
  case holds => rw [cell, if_neg bound.ne]; exact placed.held

end Placed

section Calls

variable (placed : Placed p a q turned s)

include placed

theorem next_putObject (space : ObjectSpace) (key value : Bytes) : s.next codec (.putObject space key value) =
    { s with heap := s.heap.put a (codec.serialize ⟨space, key⟩) value } := by
  simp [next, AnonymousCall.op, apply, placed.nodes, Heap.putObject, placed.unfinalized, bind, Except.bind]

theorem next_removeObject (space : ObjectSpace) (key : Bytes) (preserveTombstone : Bool) :
    s.next codec (.removeObject space key preserveTombstone) =
      { s with heap := s.heap.erase a (codec.serialize ⟨space, key⟩) preserveTombstone } := by
  simp [next, AnonymousCall.op, apply, placed.nodes, Heap.removeObject, placed.unfinalized, bind, Except.bind]

theorem next_commit : s.next codec .commit =
    ⟨(s.heap.squash a).makeChild a [] {}, [⟨none, p⟩, ⟨some 0, s.heap.size⟩]⟩ := by
  simp [next, AnonymousCall.op, apply, placed.nodes, placed.writable, bind, Except.bind]

theorem next_reset : s.next codec .reset = ⟨s.heap.makeChild a [] {}, [⟨none, p⟩, ⟨some 0, s.heap.size⟩]⟩ := by
  simp [next, AnonymousCall.op, apply, placed.nodes, bind, Except.bind]

/-- A call moves the anonymous node as it says, and publishes as it should unless the node has turned before. -/
theorem step (call : AnonymousCall) :
    (∃ a' q', Placed p a' q' (turned || call.turns) (s.next codec call)) ∧
      (Publishes s call (s.next codec call) ↔
        (call = .reset ∨ call = .commit ∧ turned = true → s.view 1 = s.view 0)) := by
  cases call
  case' putObject space key value =>
    have rewrites := s.heap.rewrites_put (p := a) (codec.serialize ⟨space, key⟩) value
    rw [next_putObject placed]
  case' removeObject space key preserveTombstone =>
    have rewrites := s.heap.rewrites_erase (p := a) (codec.serialize ⟨space, key⟩) preserveTombstone
    rw [next_removeObject placed]
  case putObject | removeObject =>
    have after := placed.rewrite rewrites
    refine ⟨⟨a, q, by simpa [AnonymousCall.turns] using after⟩, iff_of_true ⟨by simp, by simp, fun _ => ?_⟩ (by simp)⟩
    rw [after.view_zero, placed.view_zero]
    exact find_of_lower rewrites placed.lt
  case commit =>
    obtain ⟨squashed, rewrites⟩ := s.heap.find_squash placed.linked placed.holds
    have below := placed.below
    have after := (placed.rewrite rewrites).turn
    dsimp only at after
    rw [s.heap.size_squash] at after
    rw [next_commit placed]
    refine ⟨⟨s.heap.size, a, by simpa [AnonymousCall.turns] using after⟩, ?_⟩
    have shown : Session.view ⟨(s.heap.squash a).makeChild a [] {}, [⟨none, p⟩, ⟨some 0, s.heap.size⟩]⟩ 0 =
        (s.heap.squash a).find p := by
      rw [after.view_zero]
      refine (s.heap.squash a).find_push _ ?_
      rw [s.heap.size_squash]
      exact placed.lt.trans placed.bound
    cases turned with
    | false =>
      rw [if_neg Bool.false_ne_true] at below
      subst below
      refine iff_of_true ⟨fun _ => ?_, by simp, by simp⟩ (by simp)
      rw [shown, placed.view_one, squashed]
    | true =>
      have kept : (s.heap.squash a).find p = s.heap.find p := find_of_lower rewrites (by simpa using below)
      constructor
      · intro publishes _
        rw [← publishes.commit rfl, shown, kept, placed.view_zero]
      · intro agree
        refine ⟨fun _ => ?_, by simp, by simp⟩
        rw [shown, kept, ← placed.view_zero]
        exact (agree (.inr ⟨rfl, rfl⟩)).symm
  case reset =>
    have after := placed.turn
    rw [next_reset placed]
    refine ⟨⟨s.heap.size, a, by simpa [AnonymousCall.turns] using after⟩, ?_⟩
    have parent : Session.view ⟨s.heap.makeChild a [] {}, [⟨none, p⟩, ⟨some 0, s.heap.size⟩]⟩ 0 = s.view 0 := by
      rw [after.view_zero, placed.view_zero]
      exact s.heap.find_push _ (placed.lt.trans placed.bound)
    have child : Session.view ⟨s.heap.makeChild a [] {}, [⟨none, p⟩, ⟨some 0, s.heap.size⟩]⟩ 1 = s.view 1 := by
      rw [after.view_one, placed.view_one]
      exact s.heap.find_makeChild placed.bound [] {}
    constructor
    · intro publishes _
      rw [← child, publishes.reset rfl, parent]
    · intro agree
      refine ⟨by simp, fun _ => ?_, fun _ => parent⟩
      rw [child, parent]
      exact agree (.inl rfl)

end Calls

theorem afterCalls_concat (codec : KeyCodec) (h : Heap) (p : ℕ) (calls : List AnonymousCall) (call : AnonymousCall) :
    afterCalls codec h p (calls ++ [call]) = (afterCalls codec h p calls).next codec call := by
  rw [afterCalls, List.foldl_append]
  rfl

/-- The anonymous node has turned when some call did. -/
theorem placed_afterCalls (codec : KeyCodec) {h : Heap} (bound : p < h.size) (writable : (h.cell p).finalized = false)
    (held : (h.cell p).backend.isSome) (calls : List AnonymousCall) :
    ∃ a q, Placed p a q (calls.any AnonymousCall.turns) (afterCalls codec h p calls) := by
  induction calls using List.reverseRecOn with
  | nil => exact ⟨h.size, p, .start bound writable held⟩
  | append_singleton calls call ih =>
    obtain ⟨a, q, placed⟩ := ih
    rw [afterCalls_concat, List.any_append, List.any_cons, List.any_nil, Bool.or_false]
    exact (step placed call).1

end Session

/-- Commits and resets of an anonymous node do what they should on a sequence of calls if and only if the node shows
what its parent shows at every reset, and at every commit that follows a commit or a reset. -/
theorem anonymous_publishes_iff (codec : KeyCodec) (h : Heap) (p : ℕ) (bound : p < h.size)
    (writable : (h.cell p).finalized = false) (held : (h.cell p).backend.isSome) (calls : List AnonymousCall) :
    (∀ before call rest, calls = before ++ call :: rest →
        Publishes (.afterCalls codec h p before) call (.afterCalls codec h p (before ++ [call]))) ↔
      ∀ before call rest, calls = before ++ call :: rest →
        (call = .reset ∨ call = .commit ∧ before.any AnonymousCall.turns = true →
          (Session.afterCalls codec h p before).view 1 = (Session.afterCalls codec h p before).view 0) := by
  refine forall_congr' fun before => forall_congr' fun call => forall_congr' fun rest => forall_congr' fun _ => ?_
  obtain ⟨a, q, placed⟩ := Session.placed_afterCalls codec bound writable held before
  rw [Session.afterCalls_concat]
  exact (Session.step placed call).2

/-- A root without objects. -/
def emptyRoot : Heap := Heap.empty.push { backend := some {} }

/-- The first commit is published. -/
theorem anonymous_publishes_iff_root :
    let calls : List AnonymousCall := [.putObject {} [1] [2], .removeObject {} [3] true, .commit]
    ∀ before call rest, calls = before ++ call :: rest → Publishes (.afterCalls .transparent emptyRoot 0 before) call
      (.afterCalls .transparent emptyRoot 0 (before ++ [call])) := by
  refine (anonymous_publishes_iff .transparent emptyRoot 0 (by decide) rfl rfl _).mpr ?_
  intro before call rest split late
  rcases before with _ | ⟨_, _ | ⟨_, _ | ⟨_, before⟩⟩⟩ <;> simp at split <;> grind [AnonymousCall.turns]

/-- The second commit of an anonymous node does not reach its parent. -/
theorem second_commit_unpublished :
    ¬ Publishes (.afterCalls .transparent emptyRoot 0 [.putObject {} [1] [2], .commit, .putObject {} [3] [4]]) .commit
      (.afterCalls .transparent emptyRoot 0 [.putObject {} [1] [2], .commit, .putObject {} [3] [4], .commit]) := by
  intro publishes
  have shown := congrFun (publishes.commit rfl) (KeyCodec.transparent.serialize ⟨{}, [3]⟩)
  revert shown
  decide +kernel

end Teleno.StateDb
