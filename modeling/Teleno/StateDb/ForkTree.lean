import Teleno.Library.LevelOrder
import Teleno.StateDb.Skeleton

/-! # The fork tree

The indexed deltas form a tree under the root: every other one has its parent in the index, one
revision below and finalized. The lemmas of this module say what the tree looks like through ids,
which is how the database walks it, and how it changes when nodes are added, finalized or removed.
-/

namespace Teleno.StateDb

open Library List

/-- The indexed deltas of a heap under a root. -/
structure ForkTree (h : Heap) (index : List ℕ) (root : ℕ) : Prop where
  nodup : index.Nodup
  id_inj : ∀ p ∈ index, ∀ q ∈ index, h.id p = h.id q → p = q
  bound : ∀ p ∈ index, p < h.size
  synced : ∀ p < h.size, (h.cell p).Synced
  held : ∀ p ∈ index, (h.cell p).backend.isSome
  root_mem : root ∈ index
  root_parent : (h.cell root).parent = none
  root_finalized : (h.cell root).finalized = true
  parents : ∀ p ∈ index, p ≠ root → ∃ q ∈ index, (h.cell p).parent = some q ∧
    h.revision p = h.revision q + 1 ∧ (h.cell q).finalized = true

/-- A parentless delta is the first one of its heap. -/
theorem Heap.cell_empty_push {d : StateDelta} (top : d.parent = none) : (Heap.empty.push d).cell 0 = d := by
  refine (LinkedStore.cell_push _ (fun j up => ?_) 0).trans (if_pos rfl)
  rw [top] at up
  contradiction

namespace ForkTree

variable {h h' : Heap} {index : List ℕ} {root : ℕ}

variable {p q : ℕ}

/-- Induction from the root along the tree. -/
theorem induction (tree : ForkTree h index root) {motive : ℕ → Prop} (atRoot : motive root)
    (below : ∀ p ∈ index, p ≠ root → ∀ q ∈ index, (h.cell p).parent = some q → motive q → motive p)
    (mem : p ∈ index) : motive p := by
  induction p using h.link_induction with
  | step p ih =>
    rcases eq_or_ne p root with rfl | other
    · exact atRoot
    · obtain ⟨q, known, up, -⟩ := tree.parents p mem other
      exact below p mem other q known up (ih q up known)

section

variable (tree : ForkTree h index root) (mem : p ∈ index)

include tree mem

/-- Following parents from any indexed node reaches the root. -/
theorem root_mem_path : root ∈ h.path p := by
  refine tree.induction (motive := fun p => root ∈ h.path p) (h.self_mem_path root) ?_ mem
  intro p _ _ q _ up above
  exact h.mem_path_iff.mpr (.inr ⟨q, up, above⟩)

theorem top_eq : h.top p = root :=
  (h.eq_top_of_mem_path (tree.root_mem_path mem) tree.root_parent).symm

/-- Ancestors of indexed nodes are indexed. -/
theorem mem_of_mem_path (above : q ∈ h.path p) : q ∈ index := by
  refine tree.induction (motive := fun p => ∀ q ∈ h.path p, q ∈ index) ?_ ?_ mem q above
  · intro q above
    rw [h.path_of_none tree.root_parent, mem_singleton] at above
    exact above ▸ tree.root_mem
  · intro p known _ r _ up ih q above
    rcases h.mem_path_iff.mp above with rfl | ⟨r', up', above⟩
    · exact known
    · exact ih q (Option.some.inj (up.symm.trans up') ▸ above)

/-- Only the root has no parent. -/
theorem parent_eq_none_iff : (h.cell p).parent = none ↔ p = root := by
  constructor
  · intro top
    by_contra other
    obtain ⟨q, -, up, -⟩ := tree.parents p mem other
    rw [top] at up
    contradiction
  · rintro rfl
    exact tree.root_parent

theorem parent_mem (up : (h.cell p).parent = some q) :
    q ∈ index ∧ h.revision p = h.revision q + 1 ∧ (h.cell q).finalized = true := by
  have other : p ≠ root := by
    rintro rfl
    rw [tree.root_parent] at up
    contradiction
  obtain ⟨q', known, up', rest⟩ := tree.parents p mem other
  obtain rfl := Option.some.inj (up.symm.trans up')
  exact ⟨known, rest⟩

/-- A proper ancestor is finalized and has a smaller revision. -/
theorem of_mem_path (above : q ∈ h.path p) (proper : q ≠ p) :
    h.revision q < h.revision p ∧ (h.cell q).finalized = true := by
  refine tree.induction
    (motive := fun p => ∀ q ∈ h.path p, q ≠ p → h.revision q < h.revision p ∧ (h.cell q).finalized = true) ?_ ?_
    mem q above proper
  · intro q above proper
    rw [h.path_of_none tree.root_parent, mem_singleton] at above
    exact absurd above proper
  · intro p known _ r _ up ih q above proper
    obtain ⟨-, next, done⟩ := tree.parent_mem known up
    rcases eq_or_ne q r with rfl | other
    · exact ⟨by omega, done⟩
    · exact (ih q (h.mem_path_link up above proper) other).imp_left (by omega)

end

/-- The tree reads ids, revisions, parents and finalization only. -/
theorem congr (tree : ForkTree h index root) (size_le : h.size ≤ h'.size)
    (same : ∀ p ∈ index, (h'.cell p).parent = (h.cell p).parent ∧ h'.id p = h.id p ∧
      h'.revision p = h.revision p ∧ (h'.cell p).backend.isSome ∧
      ((h.cell p).finalized = true → (h'.cell p).finalized = true))
    (synced : ∀ p < h'.size, (h'.cell p).Synced) : ForkTree h' index root where
  nodup := tree.nodup
  id_inj p left q right equal := by
    rw [(same p left).2.1, (same q right).2.1] at equal
    exact tree.id_inj p left q right equal
  bound p mem := (tree.bound p mem).trans_le size_le
  synced := synced
  held p mem := (same p mem).2.2.2.1
  root_mem := tree.root_mem
  root_parent := (same root tree.root_mem).1.trans tree.root_parent
  root_finalized := (same root tree.root_mem).2.2.2.2 tree.root_finalized
  parents p mem other := by
    obtain ⟨q, known, up, next, done⟩ := tree.parents p mem other
    refine ⟨q, known, (same p mem).1.trans up, ?_, (same q known).2.2.2.2 done⟩
    rw [(same p mem).2.2.1, (same q known).2.2.1, next]

theorem of_extends (tree : ForkTree h index root) (extended : h.Extends h') : ForkTree h' index root := by
  refine tree.congr extended.size_le (fun p mem => ?_) (extended.synced tree.synced)
  have frame := extended.frame p (tree.bound p mem)
  exact ⟨frame.parent_eq, frame.id_eq, frame.revision_eq, frame.held_eq.trans (tree.held p mem),
    fun done => frame.finalized_eq.trans done⟩

theorem finalize (tree : ForkTree h index root) (node : ℕ) :
    ForkTree (h.modify node (fun d => { d with finalized := true }) (fun _ => .inl rfl)) index root := by
  refine tree.congr le_rfl (fun p mem => ?_) (fun p below => ?_)
  · rw [Heap.id, Heap.id, Heap.revision, Heap.revision, h.cell_modify]
    split_ifs with same
    · subst same
      exact ⟨rfl, rfl, rfl, tree.held p mem, fun _ => rfl⟩
    · exact ⟨rfl, rfl, rfl, tree.held p mem, fun done => done⟩
  · rw [h.cell_modify]
    split_ifs with same
    · exact same ▸ tree.synced p below
    · exact tree.synced p below

/-- The tree of a database that was just opened. -/
theorem singleton {d : StateDelta} (top : d.parent = none) (done : d.finalized = true) (held : d.backend.isSome)
    (synced : d.Synced) : ForkTree (Heap.empty.push d) [0] 0 := by
  have cell := Heap.cell_empty_push top
  have size : (Heap.empty.push d).size = 1 := LinkedStore.size_push _ fun j up => by
    rw [top] at up
    contradiction
  constructor
  case nodup => exact nodup_singleton 0
  case id_inj =>
    intro p left q right _
    rw [mem_singleton.mp left, mem_singleton.mp right]
  case bound =>
    intro p mem
    rw [mem_singleton.mp mem, size]
    exact Nat.zero_lt_one
  case synced =>
    intro p below
    rw [size] at below
    obtain rfl : p = 0 := Nat.lt_one_iff.mp below
    rw [cell]
    exact synced
  case held =>
    intro p mem
    rw [mem_singleton.mp mem, cell]
    exact held
  case root_mem => exact mem_singleton_self 0
  case root_parent => rw [cell]; exact top
  case root_finalized => rw [cell]; exact done
  case parents =>
    intro p mem other
    exact absurd (mem_singleton.mp mem) other

/-- A new leaf under a finalized node. -/
theorem push (tree : ForkTree h index root) {d : StateDelta} (known : q ∈ index) (up : d.parent = some q)
    (next : d.revision = h.revision q + 1) (done : (h.cell q).finalized = true) (fresh : ∀ p ∈ index, h.id p ≠ d.id)
    (held : d.backend.isSome) (synced : d.Synced) : ForkTree (h.push d) (index ++ [h.size]) root := by
  have linked : ∀ j, d.parent = some j → j < h.size := by
    intro j up'
    exact Option.some.inj (up.symm.trans up') ▸ tree.bound q known
  have old {p : ℕ} (mem : p ∈ index) : (h.push d).cell p = h.cell p := h.cell_push_of_lt d (tree.bound p mem)
  have new : (h.push d).cell h.size = d := by rw [h.cell_push linked, if_pos rfl]
  have size := h.size_push linked
  have outside : h.size ∉ index := fun mem => (tree.bound _ mem).ne rfl
  have split {p : ℕ} (mem : p ∈ index ++ [h.size]) : p ∈ index ∨ p = h.size := by
    simpa only [mem_append, mem_singleton] using mem
  have kept {p : ℕ} (mem : p ∈ index) : p ∈ index ++ [h.size] := mem_append_left _ mem
  constructor
  case nodup => exact nodup_append.mpr ⟨tree.nodup, nodup_singleton _, by
    intro p mem q last
    rintro rfl
    exact outside (mem_singleton.mp last ▸ mem)⟩
  case id_inj =>
    intro p left q right equal
    simp only [Heap.id] at equal
    rcases split left with left | rfl <;> rcases split right with right | rfl
    · rw [old left, old right] at equal
      exact tree.id_inj p left q right equal
    · rw [old left, new] at equal
      exact absurd equal (fresh p left)
    · rw [new, old right] at equal
      exact absurd equal.symm (fresh q right)
    · rfl
  case bound =>
    intro p mem
    rw [size]
    rcases split mem with mem | rfl
    · exact (tree.bound p mem).trans (Nat.lt_succ_self _)
    · exact Nat.lt_succ_self _
  case synced => exact (Heap.Extends.push h synced).synced tree.synced
  case held =>
    intro p mem
    rcases split mem with mem | rfl
    · rw [old mem]
      exact tree.held p mem
    · rw [new]
      exact held
  case root_mem => exact kept tree.root_mem
  case root_parent => rw [old tree.root_mem]; exact tree.root_parent
  case root_finalized => rw [old tree.root_mem]; exact tree.root_finalized
  case parents =>
    intro p mem other
    simp only [Heap.revision]
    rcases split mem with mem | rfl
    · obtain ⟨r, found, up', next', done'⟩ := tree.parents p mem other
      rw [old mem]
      exact ⟨r, kept found, up', by rw [old found]; exact next', by rw [old found]; exact done'⟩
    · rw [new]
      exact ⟨q, kept known, up, by rw [old known]; exact next, by rw [old known]; exact done⟩

/-- Removing nodes together with everything below them. -/
theorem filter (tree : ForkTree h index root) {keep : ℕ → Bool} (root_kept : keep root = true)
    (closed : ∀ p ∈ index, ∀ q, (h.cell p).parent = some q → keep p = true → keep q = true) :
    ForkTree h (index.filter keep) root where
  nodup := tree.nodup.filter keep
  id_inj p left q right := tree.id_inj p (mem_filter.mp left).1 q (mem_filter.mp right).1
  bound p mem := tree.bound p (mem_filter.mp mem).1
  synced := tree.synced
  held p mem := tree.held p (mem_filter.mp mem).1
  root_mem := mem_filter.mpr ⟨tree.root_mem, root_kept⟩
  root_parent := tree.root_parent
  root_finalized := tree.root_finalized
  parents p mem other := by
    obtain ⟨inside, kept⟩ := mem_filter.mp mem
    obtain ⟨q, known, up, rest⟩ := tree.parents p inside other
    exact ⟨q, mem_filter.mpr ⟨known, closed p inside q up kept⟩, up, rest⟩

end ForkTree

end Teleno.StateDb
