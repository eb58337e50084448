import Mathlib.Data.List.Nodup
import Mathlib.Data.List.TakeWhile
import Mathlib.Data.List.Perm.Subperm
import Mathlib.Algebra.Order.BigOperators.Group.List
import Mathlib.Algebra.Order.Group.Nat

/-! # Worklists visit a forest in level order

`drain?` is the usual worklist loop: take the first pending item, append its successors, repeat.
`generation` describes the same traversal without a queue, one level at a time. On a finite
universe in which every item has at most one predecessor and a rank one above it, the loop ends
within as many rounds as the universe has items, visits each item once, and its order is the
concatenation of the generations.
-/

namespace Teleno.Library

open List

variable {α : Type*}

/-- Process pending items in order, appending successors; `none` when the rounds run out. -/
def drain? (next : α → List α) : ℕ → List α → Option (List α)
  | _, [] => some []
  | 0, _ :: _ => none
  | fuel + 1, item :: rest => (drain? next fuel (rest ++ next item)).map (item :: ·)

/-- The items a fixed number of successor steps away from the start. -/
def generation (next : α → List α) (start : List α) : ℕ → List α
  | 0 => start
  | depth + 1 => (generation next start depth).flatMap next

/-- The first generations, one after the other. -/
def levelOrder (next : α → List α) (start : List α) (depth : ℕ) : List α :=
  (List.range depth).flatMap (generation next start)

/-- `x` comes before `y`: in an earlier generation, or earlier in the same one. -/
def Precedes (next : α → List α) (start : List α) (x y : α) : Prop :=
  (∃ i j, i < j ∧ x ∈ generation next start i ∧ y ∈ generation next start j) ∨
    ∃ i before after, generation next start i = before ++ y :: after ∧ x ∈ before

theorem generation_succ (next : α → List α) (start : List α) (depth : ℕ) :
    generation next start (depth + 1) = generation next (start.flatMap next) depth := by
  induction depth with
  | zero => rfl
  | succ depth ih => rw [generation, ih, generation]

/-- Nothing follows an empty generation. -/
theorem generation_eq_nil_of_add {next : α → List α} {start : List α} {depth : ℕ}
    (finished : generation next start depth = []) {extra : ℕ} : generation next start (depth + extra) = [] := by
  induction extra with
  | zero => exact finished
  | succ extra ih => rw [← Nat.add_assoc, generation, ih, flatMap_nil]

theorem levelOrder_succ (next : α → List α) (start : List α) (depth : ℕ) :
    levelOrder next start (depth + 1) = start ++ levelOrder next (start.flatMap next) depth := by
  simp only [levelOrder, range_succ_eq_map, flatMap_cons, flatMap_map]
  exact congrArg (start ++ ·) (flatMap_congr fun i _ => generation_succ next start i)

theorem mem_levelOrder {next : α → List α} {start : List α} {depth : ℕ} {x : α} :
    x ∈ levelOrder next start depth ↔ ∃ i < depth, x ∈ generation next start i := by
  simp [levelOrder]

/-- One pass over the pending items replaces them by their successors. -/
private theorem drain?_pass (next : α → List α) (fuel : ℕ) (queue later : List α) :
    drain? next (queue.length + fuel) (queue ++ later) =
      (drain? next fuel (later ++ queue.flatMap next)).map (queue ++ ·) := by
  induction queue generalizing later with
  | nil => simp
  | cons item rest ih =>
    have rounds : (item :: rest).length + fuel = (rest.length + fuel) + 1 := by
      simp only [length_cons]; omega
    rw [rounds, cons_append, drain?, append_assoc, ih]
    simp [Function.comp_def]

/-- With enough rounds the worklist visits exactly the generations. -/
theorem drain?_eq_levelOrder (next : α → List α) (start : List α) (depth fuel : ℕ)
    (finished : generation next start depth = []) (enough : (levelOrder next start depth).length ≤ fuel) :
    drain? next fuel start = some (levelOrder next start depth) := by
  induction depth generalizing start fuel with
  | zero =>
    change start = [] at finished
    subst finished
    cases fuel <;> rfl
  | succ depth ih =>
    rw [levelOrder_succ, length_append] at enough
    obtain ⟨spare, rfl⟩ := Nat.exists_eq_add_of_le (show start.length ≤ fuel by omega)
    have pass := drain?_pass next spare start []
    rw [append_nil, nil_append] at pass
    rw [pass, ih _ spare (generation_succ next start depth ▸ finished) (by omega), levelOrder_succ]
    rfl

section Forest

variable {next : α → List α} {rank : α → ℕ} {items : List α} {start : α}

/-- Successor lists that form a forest over the universe, graded by `rank`. -/
structure IsForest (next : α → List α) (rank : α → ℕ) (items : List α) : Prop where
  closed : ∀ x ∈ items, ∀ y ∈ next x, y ∈ items
  graded : ∀ x ∈ items, ∀ y ∈ next x, rank y = rank x + 1
  nodup : ∀ x ∈ items, (next x).Nodup
  unique : ∀ x ∈ items, ∀ x' ∈ items, ∀ y, y ∈ next x → y ∈ next x' → x = x'

section

variable (forest : IsForest next rank items) (inside : start ∈ items)

include forest inside

theorem IsForest.generation_mem
    (depth : ℕ) : ∀ x ∈ generation next [start] depth, x ∈ items ∧ rank x = rank start + depth := by
  induction depth with
  | zero =>
    intro x mem
    obtain rfl := mem_singleton.mp mem
    exact ⟨inside, rfl⟩
  | succ depth ih =>
    intro y mem
    obtain ⟨x, earlier, step⟩ := mem_flatMap.mp mem
    obtain ⟨known, ranked⟩ := ih x earlier
    exact ⟨forest.closed x known y step, by rw [forest.graded x known y step, ranked, Nat.add_assoc]⟩

theorem IsForest.generation_nodup (depth : ℕ) : (generation next [start] depth).Nodup := by
  induction depth with
  | zero => exact nodup_singleton start
  | succ depth ih =>
    have known := fun x mem => (forest.generation_mem inside depth x mem).1
    refine nodup_flatMap.mpr ⟨fun x mem => forest.nodup x (known x mem), ?_⟩
    refine ih.imp_of_mem ?_
    intro x x' left right different
    refine disjoint_iff_ne.mpr ?_
    rintro y first _ second rfl
    exact different (forest.unique x (known x left) x' (known x' right) y first second)

theorem IsForest.levelOrder_nodup (depth : ℕ) : (levelOrder next [start] depth).Nodup := by
  refine nodup_flatMap.mpr ⟨fun i _ => forest.generation_nodup inside i, ?_⟩
  refine nodup_range.imp ?_
  intro i j different
  refine disjoint_iff_ne.mpr ?_
  rintro x first _ second rfl
  have left := (forest.generation_mem inside i x first).2
  have right := (forest.generation_mem inside j x second).2
  omega

/-- Some generation is empty: ranks are bounded on a finite universe. -/
theorem IsForest.exists_last : ∃ depth, generation next [start] depth = [] := by
  refine ⟨(items.map rank).sum + 1, eq_nil_iff_forall_not_mem.mpr ?_⟩
  intro x mem
  obtain ⟨known, ranked⟩ := forest.generation_mem inside _ x mem
  have bounded := le_sum_of_mem (mem_map_of_mem (f := rank) known)
  omega

/-- The worklist finishes within one round per item of the universe and visits level by level. -/
theorem IsForest.drain?_eq : ∃ depth, generation next [start] depth = [] ∧
      drain? next items.length [start] = some (levelOrder next [start] depth) := by
  obtain ⟨depth, finished⟩ := forest.exists_last inside
  refine ⟨depth, finished, drain?_eq_levelOrder next [start] depth _ finished ?_⟩
  apply (subperm_of_subset (forest.levelOrder_nodup inside depth) ?_).length_le
  intro x mem
  obtain ⟨i, _, mem⟩ := mem_levelOrder.mp mem
  exact (forest.generation_mem inside i x mem).1

end

private theorem takeWhile_ne_split [DecidableEq α] {before : List α} (after : List α) {y : α}
    (absent : y ∉ before) : (before ++ y :: after).takeWhile (fun z => decide (z ≠ y)) = before := by
  rw [takeWhile_append_of_pos, takeWhile_cons_of_neg (by simp), append_nil]
  intro z mem
  exact decide_eq_true fun same => absent (same ▸ mem)

/-- What the worklist has visited when it reaches `y` is what precedes `y` level by level. -/
theorem IsForest.mem_takeWhile_iff [DecidableEq α] (forest : IsForest next rank items) (inside : start ∈ items)
    {depth : ℕ} {x y : α} (present : y ∈ levelOrder next [start] depth) :
    x ∈ (levelOrder next [start] depth).takeWhile (fun z => decide (z ≠ y)) ↔
      Precedes next [start] x y := by
  obtain ⟨j, below, mem⟩ := mem_levelOrder.mp present
  obtain ⟨before, after, split⟩ := append_of_mem mem
  have parts : range depth = range j ++ j :: range' (j + 1) (depth - (j + 1)) := by
    have join := range'_append_1 (s := 0) (m := j) (n := depth - (j + 1) + 1)
    rw [Nat.zero_add] at join
    rw [range_eq_range', range_eq_range', ← range'_succ, join]
    congr 1
    omega
  have layout : levelOrder next [start] depth = (levelOrder next [start] j ++ before) ++ y :: (after ++
      (range' (j + 1) (depth - (j + 1))).flatMap (generation next [start])) := by
    rw [levelOrder, parts, flatMap_append, flatMap_cons, split, levelOrder]
    simp
  have only : ∀ i, y ∈ generation next [start] i → i = j := by
    intro i other
    have left := (forest.generation_mem inside i y other).2
    have right := (forest.generation_mem inside j y mem).2
    omega
  have distinct := forest.levelOrder_nodup inside depth
  rw [layout] at distinct
  have absent : y ∉ levelOrder next [start] j ++ before :=
    fun earlier => (nodup_append.mp distinct).2.2 y earlier y (mem_cons_self ..) rfl
  rw [layout, takeWhile_ne_split _ absent, mem_append]
  constructor
  · rintro (earlier | earlier)
    · obtain ⟨i, lower, earlier⟩ := mem_levelOrder.mp earlier
      exact .inl ⟨i, j, lower, earlier, mem⟩
    · exact .inr ⟨j, before, after, split, earlier⟩
  · rintro (⟨i, i', lower, earlier, later⟩ | ⟨i, before', after', split', earlier⟩)
    · obtain rfl := only i' later
      exact .inl (mem_levelOrder.mpr ⟨i, lower, earlier⟩)
    · obtain rfl := only i (split' ▸ mem_append_right _ (mem_cons_self ..))
      have level := forest.generation_nodup inside i
      rw [split'] at level
      have absent' : y ∉ before' := fun other => (nodup_append.mp level).2.2 y other y (mem_cons_self ..) rfl
      have same : before = before' := by
        rw [← takeWhile_ne_split after (fun other => absent (mem_append_right _ other)),
          ← split, split', takeWhile_ne_split _ absent']
      exact .inr (same ▸ earlier)

end Forest

end Teleno.Library
