import Mathlib.Data.List.Induction
import Teleno.Chain.Messages

/-! # The block applicator

A block that the handler does not accept waits for its parent. A block that it accepts releases the blocks that wait
for it, one generation after the other. The lock makes deliveries by several threads one sequence.
-/

namespace Teleno.Mempool

open List
open Chain (Block)

/-- The calls of a handler with its answers. -/
abbrev CallHistory := List (Block × Bool)

/-- The blocks that were accepted, in order. -/
def CallHistory.accepted (history : CallHistory) : List Block := (history.filter Prod.snd).map Prod.fst

/-- A handler answers from the calls that have been made. -/
abbrev BlockHandler := CallHistory → Block → Bool

/-- `block_applicator`, with the calls of its handler. The waiting blocks are in the order of their arrival; those of
one height are the vector under that height. -/
structure BlockApplicator where
  waiting : List Block := []
  history : CallHistory := []

namespace BlockApplicator

variable (handler : BlockHandler)

/-- `std::erase_if` on the vector of a height: what stays, and what has been applied. -/
def eraseApplied (id : Bytes) (height : ℕ) : List Block → CallHistory → List Block × List Block × CallHistory
  | [], history => ([], [], history)
  | b :: rest, history =>
    if b.header.height = height ∧ b.header.previous = id then
      let answer := handler history b
      let (kept, applied, history) := eraseApplied id height rest (history ++ [(b, answer)])
      if answer then (kept, b :: applied, history) else (b :: kept, applied, history)
    else
      let (kept, applied, history) := eraseApplied id height rest history
      (b :: kept, applied, history)

theorem length_eraseApplied (id : Bytes) (height : ℕ) (waiting : List Block) (history : CallHistory) :
    (eraseApplied handler id height waiting history).1.length +
      (eraseApplied handler id height waiting history).2.1.length = waiting.length := by
  induction waiting generalizing history with
  | nil => rfl
  | cons b rest ih =>
    have taken := ih (history ++ [(b, handler history b)])
    have passed := ih history
    grind [eraseApplied]

/-- The loop over the applied blocks, whose waiting children are applied in turn. -/
def applyWaiting (queue : List (Bytes × ℕ)) (applicator : BlockApplicator) : BlockApplicator :=
  match queue with
  | [] => applicator
  | (id, height) :: queue =>
    let released := eraseApplied handler id (height + 1) applicator.waiting applicator.history
    applyWaiting (queue ++ released.2.1.map fun b => (b.id, b.header.height)) ⟨released.1, released.2.2⟩
termination_by queue.length + applicator.waiting.length
decreasing_by
  have lengths := length_eraseApplied handler id (height + 1) applicator.waiting applicator.history
  simp only [length_append, length_map, length_cons]
  omega

def handleBlock (applicator : BlockApplicator) (b : Block) : BlockApplicator :=
  let answer := handler applicator.history b
  let history := applicator.history ++ [(b, answer)]
  if answer then applyWaiting handler [(b.id, b.header.height)] { applicator with history }
  else ⟨applicator.waiting ++ [b], history⟩

/-- Blocks that are delivered one after the other. -/
def deliver (blocks : List Block) : BlockApplicator := blocks.foldl (handleBlock handler) {}

end BlockApplicator

open BlockApplicator

/-- The handler accepts a block exactly when its parent is the root or has been accepted. -/
def AcceptsLinked (rootId : Bytes) (handler : BlockHandler) : Prop :=
  ∀ history b, handler history b = true ↔
    b.header.previous = rootId ∨ ∃ parent ∈ history.accepted, parent.id = b.header.previous

/-- A path of parents leads from the block to the root. -/
inductive Descends (rootId : Bytes) (blocks : List Block) : Block → Prop
  | root {b : Block} : b.header.previous = rootId → Descends rootId blocks b
  | child {parent b : Block} : parent ∈ blocks → b.header.previous = parent.id → Descends rootId blocks parent →
    Descends rootId blocks b

/-- A finite tree of distinct blocks on a root. -/
structure BlockTree (rootId : Bytes) (blocks : List Block) : Prop where
  distinct : (blocks.map Block.id).Nodup
  descends : ∀ b ∈ blocks, Descends rootId blocks b
  heights : ∀ parent ∈ blocks, ∀ b ∈ blocks, b.header.previous = parent.id → b.header.height = parent.header.height + 1

/-- Every block comes after its parent. -/
def ParentsFirst (rootId : Bytes) (blocks : List Block) : Prop :=
  ∀ (i : ℕ) (b : Block), blocks[i]? = some b →
    b.header.previous = rootId ∨ ∃ j < i, ∃ parent, blocks[j]? = some parent ∧ b.header.previous = parent.id

/-- Of distinct blocks each is accepted once, after its parent, and none is left waiting. -/
structure AppliesAll (rootId : Bytes) (blocks : List Block) (applicator : BlockApplicator) : Prop where
  once : (applicator.history.accepted).Perm blocks
  parentsFirst : ParentsFirst rootId (applicator.history.accepted)
  noneWaiting : applicator.waiting = []

section Release

variable {rootId : Bytes} {blocks delivered : List Block} {handler : BlockHandler} {history : CallHistory}
  {queue : List (Bytes × ℕ)} {applicator : BlockApplicator}

@[simp] theorem accepted_append (history history' : CallHistory) : CallHistory.accepted (history ++ history') =
    history.accepted ++ history'.accepted := by
  simp [CallHistory.accepted]

@[simp] theorem accepted_singleton (b : Block) (answer : Bool) :
    CallHistory.accepted [(b, answer)] = if answer then [b] else [] := by
  cases answer <;> rfl

@[simp] theorem accepted_map (list : List Block) : CallHistory.accepted (list.map (·, true)) = list := by
  simp [CallHistory.accepted, filter_map, Function.comp_def]

theorem ParentsFirst.append {list new : List Block} (first : ParentsFirst rootId list)
    (linked : ∀ b ∈ new, b.header.previous = rootId ∨ ∃ parent ∈ list, b.header.previous = parent.id) :
    ParentsFirst rootId (list ++ new) := by
  intro i b found
  by_cases inside : i < list.length
  · rw [getElem?_append_left inside] at found
    refine (first i b found).imp_right ?_
    rintro ⟨j, before, parent, known, up⟩
    exact ⟨j, before, parent, (getElem?_append_left (before.trans inside)).trans known, up⟩
  · rw [getElem?_append_right (not_lt.mp inside)] at found
    refine (linked b (mem_of_getElem? found)).imp_right ?_
    rintro ⟨parent, mem, up⟩
    obtain ⟨j, bound, rfl⟩ := mem_iff_getElem.mp mem
    exact ⟨j, by omega, _, (getElem?_append_left bound).trans (getElem?_eq_getElem bound), up⟩

/-- All blocks that wait for an accepted block are applied. -/
theorem eraseApplied_eq (honest : AcceptsLinked rootId handler) {parent : Block}
    (accepted : parent ∈ history.accepted) (height : ℕ) (waiting : List Block) :
    eraseApplied handler parent.id height waiting history =
      let released := fun b : Block => decide (b.header.height = height ∧ b.header.previous = parent.id)
      (waiting.filter fun b => !released b, waiting.filter released,
        history ++ (waiting.filter released).map (·, true)) := by
  induction waiting generalizing history with
  | nil => simp [eraseApplied]
  | cons b rest ih =>
    rw [eraseApplied]
    split_ifs with waits
    · have answer := (honest history b).mpr (.inr ⟨parent, accepted, waits.2.symm⟩)
      have known : parent ∈ CallHistory.accepted (history ++ [(b, true)]) := by simp [accepted]
      have later := ih known
      simp_all
    · rw [ih accepted]
      dsimp only
      rw [filter_cons_of_pos (by rw [decide_eq_false waits]; rfl),
        filter_cons_of_neg (by rw [decide_eq_false waits]; exact Bool.false_ne_true)]

/-- What holds while the applied blocks in the queue still have to release their children. -/
structure Releasing (rootId : Bytes) (delivered : List Block) (queue : List (Bytes × ℕ))
    (applicator : BlockApplicator) : Prop where
  perm : (applicator.history.accepted ++ applicator.waiting).Perm delivered
  parentsFirst : ParentsFirst rootId (applicator.history.accepted)
  queued : ∀ entry ∈ queue, ∃ b ∈ applicator.history.accepted, (b.id, b.header.height) = entry
  orphans : ∀ b ∈ applicator.waiting, b.header.previous ≠ rootId ∧
    ∀ parent ∈ applicator.history.accepted, b.header.previous = parent.id →
      (parent.id, parent.header.height) ∈ queue

theorem Releasing.mem (releasing : Releasing rootId delivered queue applicator) {b : Block} :
    b ∈ delivered ↔ b ∈ applicator.history.accepted ∨ b ∈ applicator.waiting :=
  (releasing.perm.mem_iff).symm.trans mem_append

section

variable (honest : AcceptsLinked rootId handler) (tree : BlockTree rootId blocks)

include honest tree

theorem Releasing.applyWaiting (known : ∀ b ∈ delivered, b ∈ blocks)
    (releasing : Releasing rootId delivered queue applicator) :
    Releasing rootId delivered [] (BlockApplicator.applyWaiting handler queue applicator) := by
  induction queue, applicator using BlockApplicator.applyWaiting.induct handler with
  | case1 applicator =>
    rw [BlockApplicator.applyWaiting]
    exact releasing
  | case2 applicator id height queue released ih =>
    rw [BlockApplicator.applyWaiting]
    apply ih
    obtain ⟨parent, accepted, same⟩ := releasing.queued _ mem_cons_self
    obtain ⟨rfl, rfl⟩ := Prod.mk.inj same
    have split := eraseApplied_eq honest accepted (parent.header.height + 1) applicator.waiting
    dsimp only at split
    rw [show released = _ from split]
    have waits {b : Block} (waiting : b ∈ applicator.waiting) (up : b.header.previous = parent.id) :=
      tree.heights parent (known _ (releasing.mem.mpr (.inl accepted))) b
        (known _ (releasing.mem.mpr (.inr waiting))) up
    constructor
    · rw [accepted_append, accepted_map, append_assoc]
      exact ((filter_append_perm _ _).append_left _).trans releasing.perm
    · rw [accepted_append, accepted_map]
      refine releasing.parentsFirst.append fun b mem => .inr ⟨parent, accepted, ?_⟩
      exact (of_decide_eq_true (mem_filter.mp mem).2).2
    · intro entry mem
      rw [accepted_append, accepted_map]
      rcases mem_append.mp mem with old | new
      · obtain ⟨b, inside, same⟩ := releasing.queued entry (mem_cons_of_mem _ old)
        exact ⟨b, mem_append_left _ inside, same⟩
      · obtain ⟨b, inside, same⟩ := mem_map.mp new
        exact ⟨b, mem_append_right _ inside, same⟩
    · intro b mem
      obtain ⟨waiting, stays⟩ := mem_filter.mp mem
      obtain ⟨rootless, orphan⟩ := releasing.orphans b waiting
      refine ⟨rootless, fun other inside up => ?_⟩
      rw [accepted_append, accepted_map] at inside
      rcases mem_append.mp inside with old | new
      · rcases mem_cons.mp (orphan other old up) with same | queued
        · obtain ⟨sameId, -⟩ := Prod.mk.inj same
          have up := up.trans sameId
          simp [waits waiting up, up] at stays
        · exact mem_append_left _ queued
      · exact mem_append_right _ (mem_map.mpr ⟨other, new, rfl⟩)

/-- One more delivery. -/
theorem Releasing.handleBlock {b : Block} (known : ∀ other ∈ delivered ++ [b], other ∈ blocks)
    (releasing : Releasing rootId delivered [] applicator) :
    Releasing rootId (delivered ++ [b]) [] (applicator.handleBlock handler b) := by
  have linked := honest applicator.history b
  rw [BlockApplicator.handleBlock]
  cases answer : handler applicator.history b with
  | true =>
    rw [answer] at linked
    refine Releasing.applyWaiting honest tree known ⟨?_, ?_, ?_, ?_⟩
    · have moved := (perm_middle.trans (releasing.perm.cons b)).trans (perm_append_singleton b delivered).symm
      simpa using moved
    · simpa using releasing.parentsFirst.append (by simpa [eq_comm] using linked)
    · simp
    · intro other waiting
      obtain ⟨rootless, orphan⟩ := releasing.orphans other waiting
      refine ⟨rootless, fun parent inside up => ?_⟩
      simp only [accepted_append, accepted_singleton, if_true, mem_append, mem_singleton] at inside
      rcases inside with old | rfl
      · exact absurd (orphan parent old up) not_mem_nil
      · exact mem_singleton_self _
  | false =>
    rw [answer] at linked
    refine ⟨?_, ?_, by simp, ?_⟩
    · simpa using releasing.perm.append_right [b]
    · simpa using releasing.parentsFirst
    · intro other waiting
      simp only [accepted_append, accepted_singleton, Bool.false_eq_true, if_false, append_nil]
      rcases mem_append.mp waiting with old | new
      · exact releasing.orphans other old
      · obtain rfl := mem_singleton.mp new
        refine ⟨fun root => ?_, fun parent inside up => ?_⟩
        · exact Bool.false_ne_true (linked.mpr (.inl root))
        · exact absurd (linked.mpr (.inr ⟨parent, inside, up.symm⟩)) Bool.false_ne_true

theorem releasing_deliver (known : ∀ b ∈ delivered, b ∈ blocks) :
    Releasing rootId delivered [] (deliver handler delivered) := by
  induction delivered using reverseRecOn with
  | nil => exact ⟨.refl _, by simp [ParentsFirst, deliver, CallHistory.accepted], by simp, by
      simp [deliver]⟩
  | append_singleton delivered b ih =>
    rw [deliver, foldl_append]
    exact (ih fun other mem => known other (mem_append_left _ mem)).handleBlock honest tree known

end

end Release

/-- In whatever order the blocks of a tree are delivered, all of them are applied. -/
theorem deliver_appliesAll (rootId : Bytes) (blocks order : List Block) (handler : BlockHandler)
    (tree : BlockTree rootId blocks) (honest : AcceptsLinked rootId handler) (delivery : order.Perm blocks) :
    AppliesAll rootId blocks (deliver handler order) := by
  have releasing := releasing_deliver honest tree fun b mem => delivery.mem_iff.mp mem
  have released {b : Block} (descends : Descends rootId blocks b) : b ∉ (deliver handler order).waiting := by
    induction descends with
    | root top => exact fun waiting => (releasing.orphans _ waiting).1 top
    | child inside up _ ih =>
      intro waiting
      have accepted := (releasing.mem.mp (delivery.mem_iff.mpr inside)).resolve_right ih
      exact not_mem_nil ((releasing.orphans _ waiting).2 _ accepted up)
  have noneWaiting : (deliver handler order).waiting = [] := by
    refine eq_nil_iff_forall_not_mem.mpr fun b waiting => released ?_ waiting
    exact tree.descends b (delivery.mem_iff.mp (releasing.mem.mpr (.inr waiting)))
  refine ⟨?_, releasing.parentsFirst, noneWaiting⟩
  have perm := releasing.perm
  rw [noneWaiting, append_nil] at perm
  exact perm.trans delivery

/-- The handler that does what is asked of it. -/
def linkedHandler (rootId : Bytes) : BlockHandler := fun history b =>
  b.header.previous = rootId ∨ ∃ parent ∈ history.accepted, parent.id = b.header.previous

/-- A chain of two blocks on the root and a fork of the first one, delivered from the tips down. -/
def forkedBlocks : List Block :=
  [{ id := [3], header := { previous := [1], height := 2 } }, { id := [2], header := { previous := [1], height := 2 } },
    { id := [1], header := { previous := [0], height := 1 } }]

theorem forkedBlocks_appliesAll : BlockTree [0] forkedBlocks ∧ AcceptsLinked [0] (linkedHandler [0]) ∧
    AppliesAll [0] forkedBlocks (deliver (linkedHandler [0]) forkedBlocks) := by
  have honest : AcceptsLinked [0] (linkedHandler [0]) := fun history b => decide_eq_true_iff
  have first : Descends [0] forkedBlocks { id := [1], header := { previous := [0], height := 1 } } := .root rfl
  have tree : BlockTree [0] forkedBlocks := by
    refine ⟨by decide, ?_, by decide⟩
    simp only [forkedBlocks, forall_mem_cons, not_mem_nil, false_imp_iff, implies_true, and_true]
    exact ⟨.child (by decide) rfl first, .child (by decide) rfl first, first⟩
  exact ⟨tree, honest, deliver_appliesAll [0] forkedBlocks forkedBlocks (linkedHandler [0]) tree honest (.refl _)⟩

end Teleno.Mempool
