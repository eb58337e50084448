import Mathlib.Data.List.Nodup
import Mathlib.Data.List.Sort
import Mathlib.Data.Nat.Init

/-! # Stores of cells linked to earlier cells

A `LinkedStore` is an append-only heap. Every cell may name one earlier cell as its link, so a
link always points to a smaller address and following links terminates. `path` lists the
addresses from a cell up to the unlinked end of its chain, `lineage` lists the cells themselves.
Cells may be rewritten in place as long as their link is kept or dropped; `path` then changes
only below a dropped link.
-/

namespace Teleno.Library

open List

/-- A heap whose cells link to strictly earlier addresses. -/
structure LinkedStore (α : Type*) (link : α → Option ℕ) where
  size : ℕ
  cell : ℕ → α
  descending : ∀ i j, link (cell i) = some j → j < i

namespace LinkedStore

variable {α β : Type*} {link : α → Option ℕ}

/-- Rewrite one cell in place; the rewriting keeps the cell's link or drops it. -/
def modify (s : LinkedStore α link) (i : ℕ) (f : α → α)
    (keeps : ∀ a, link (f a) = link a ∨ link (f a) = none) : LinkedStore α link where
  size := s.size
  cell := Function.update s.cell i (f (s.cell i))
  descending := by
    intro k j linked
    rcases eq_or_ne k i with rfl | other
    · rw [Function.update_self] at linked
      rcases keeps (s.cell k) with kept | dropped
      · exact s.descending k j (kept ▸ linked)
      · rw [dropped] at linked
        contradiction
    · rw [Function.update_of_ne other] at linked
      exact s.descending k j linked

/-- Allocate a cell at the next address. A link outside the allocated part is refused. -/
def push (s : LinkedStore α link) (a : α) : LinkedStore α link :=
  if bound : ∀ j, link a = some j → j < s.size then
    { size := s.size + 1
      cell := Function.update s.cell s.size a
      descending := by
        intro k j linked
        rcases eq_or_ne k s.size with rfl | other
        · rw [Function.update_self] at linked
          exact bound j linked
        · rw [Function.update_of_ne other] at linked
          exact s.descending k j linked }
  else s

theorem cell_modify (s : LinkedStore α link) (i : ℕ) (f : α → α) (keeps) (k : ℕ) :
    (s.modify i f keeps).cell k = if k = i then f (s.cell i) else s.cell k := by
  simp [modify, Function.update_apply]

@[simp] theorem cell_modify_self (s : LinkedStore α link) (i : ℕ) (f : α → α) (keeps) :
    (s.modify i f keeps).cell i = f (s.cell i) := by
  rw [cell_modify, if_pos rfl]

variable {i k j m : ℕ} {a : α}

theorem cell_modify_of_ne (s : LinkedStore α link) (f : α → α) (keeps) (other : k ≠ i) :
    (s.modify i f keeps).cell k = s.cell k := by
  rw [cell_modify, if_neg other]

theorem size_push (s : LinkedStore α link) (bound : ∀ j, link a = some j → j < s.size) :
    (s.push a).size = s.size + 1 := by
  rw [push, dif_pos bound]

theorem cell_push (s : LinkedStore α link) (bound : ∀ j, link a = some j → j < s.size)
    (k : ℕ) : (s.push a).cell k = if k = s.size then a else s.cell k := by
  rw [push, dif_pos bound]
  simp [Function.update_apply]

/-- Allocation, granted or refused, keeps the allocated cells. -/
theorem cell_push_of_lt (s : LinkedStore α link) (a : α) (inside : k < s.size) : (s.push a).cell k = s.cell k := by
  by_cases bound : ∀ j, link a = some j → j < s.size
  · rw [s.cell_push bound, if_neg inside.ne]
  · rw [push, dif_neg bound]

/-- Follow links for at most the given number of steps. -/
def pathFrom (s : LinkedStore α link) : ℕ → ℕ → List ℕ
  | 0, i => [i]
  | fuel + 1, i =>
    i :: match link (s.cell i) with
      | none => []
      | some j => s.pathFrom fuel j

/-- The addresses from `i` up to the end of its chain. An address bounds its own chain length. -/
def path (s : LinkedStore α link) (i : ℕ) : List ℕ := s.pathFrom i i

/-- The cells along a path, nearest first. -/
def lineage (s : LinkedStore α link) (i : ℕ) : List α := (s.path i).map s.cell

/-- The unlinked address at the end of a path. -/
def top (s : LinkedStore α link) (i : ℕ) : ℕ := (s.path i).getLastD i

section

variable (s : LinkedStore α link)

private theorem pathFrom_of_le (fuel i : ℕ) (enough : i ≤ fuel) : s.pathFrom fuel i = s.path i := by
  induction fuel using Nat.strong_induction_on generalizing i with
  | h fuel ih =>
    rcases eq_or_ne fuel i with rfl | other
    · rfl
    cases fuel with
    | zero => omega
    | succ fuel =>
      cases i with
      | zero =>
        cases linked : link (s.cell 0) with
        | none => simp [path, pathFrom, linked]
        | some j => exact absurd (s.descending 0 j linked) (Nat.not_lt_zero j)
      | succ i =>
        simp only [path, pathFrom]
        cases linked : link (s.cell (i + 1)) with
        | none => rfl
        | some j =>
          have below := s.descending (i + 1) j linked
          dsimp only
          rw [ih fuel (by omega) j (by omega), ih i (by omega) j (by omega)]

/-- One step of a path: the address itself, then the path of its link. -/
theorem path_eq (i : ℕ) : s.path i = i :: (link (s.cell i)).elim [] s.path := by
  rw [← s.pathFrom_of_le (i + 1) i (by omega), pathFrom]
  cases linked : link (s.cell i) with
  | none => rfl
  | some j =>
    have below := s.descending i j linked
    dsimp only [Option.elim_some]
    rw [s.pathFrom_of_le i j (by omega)]

theorem path_of_none (ends : link (s.cell i) = none) : s.path i = [i] := by
  rw [path_eq, ends, Option.elim_none]

theorem path_of_some (linked : link (s.cell i) = some j) : s.path i = i :: s.path j := by
  rw [path_eq, linked, Option.elim_some]

theorem lineage_of_some (linked : link (s.cell i) = some j) : s.lineage i = s.cell i :: s.lineage j := by
  rw [lineage, s.path_of_some linked, map_cons, lineage]

theorem top_of_none (ends : link (s.cell i) = none) : s.top i = i := by
  rw [top, s.path_of_none ends, getLastD_cons, getLastD_nil]

theorem top_of_some (linked : link (s.cell i) = some j) : s.top i = s.top j := by
  rw [top, s.path_of_some linked, getLastD_cons, top, s.path_eq j, getLastD_cons, getLastD_cons]

/-- Induction along links: a property holds of `i` once it holds of the cell `i` links to. -/
theorem link_induction {motive : ℕ → Prop}
    (step : ∀ i, (∀ j, link (s.cell i) = some j → motive j) → motive i) (i : ℕ) : motive i := by
  induction i using Nat.strong_induction_on with
  | h i ih => exact step i (fun j linked => ih j (s.descending i j linked))

@[simp] theorem self_mem_path (i : ℕ) : i ∈ s.path i := by
  rw [path_eq]
  exact mem_cons_self ..

theorem mem_path_iff : j ∈ s.path i ↔ j = i ∨ ∃ k, link (s.cell i) = some k ∧ j ∈ s.path k := by
  rw [path_eq, mem_cons]
  cases link (s.cell i) with
  | none | some => simp

theorem le_of_mem_path (mem : j ∈ s.path i) : j ≤ i := by
  induction i using s.link_induction with
  | step i ih =>
    rcases s.mem_path_iff.mp mem with rfl | ⟨k, linked, mem⟩
    · exact le_rfl
    · exact (ih k linked mem).trans (s.descending i k linked).le

theorem mem_path_trans (upper : k ∈ s.path j) (lower : j ∈ s.path i) : k ∈ s.path i := by
  induction i using s.link_induction with
  | step i ih =>
    rcases s.mem_path_iff.mp lower with rfl | ⟨m, linked, mem⟩
    · exact upper
    · exact s.mem_path_iff.mpr (.inr ⟨m, linked, ih m linked mem⟩)

theorem mem_path_antisymm (left : j ∈ s.path i) (right : i ∈ s.path j) : i = j :=
  le_antisymm (s.le_of_mem_path right) (s.le_of_mem_path left)

/-- A proper member of a path lies on the path of the link. -/
theorem mem_path_link (linked : link (s.cell i) = some k) (mem : j ∈ s.path i) (proper : j ≠ i) : j ∈ s.path k := by
  rcases s.mem_path_iff.mp mem with same | ⟨m, linked', mem⟩
  · exact absurd same proper
  · exact Option.some.inj (linked'.symm.trans linked) ▸ mem

/-- Below a proper member of a path the path goes through one of its links back. -/
theorem exists_link_of_mem_path (mem : j ∈ s.path i) (proper : j ≠ i) : ∃ k ∈ s.path i, link (s.cell k) = some j := by
  induction i using s.link_induction with
  | step i ih =>
    rcases s.mem_path_iff.mp mem with same | ⟨m, linked, mem⟩
    · exact absurd same proper
    rcases eq_or_ne j m with rfl | other
    · exact ⟨i, s.self_mem_path i, linked⟩
    · obtain ⟨k, below, link⟩ := ih m linked mem other
      exact ⟨k, s.mem_path_iff.mpr (.inr ⟨m, linked, below⟩), link⟩

theorem path_nodup (i : ℕ) : (s.path i).Nodup := by
  induction i using s.link_induction with
  | step i ih =>
    cases linked : link (s.cell i) with
    | none => rw [s.path_of_none linked]; exact nodup_singleton i
    | some j =>
      rw [s.path_of_some linked]
      refine nodup_cons.mpr ⟨?_, ih j linked⟩
      intro mem
      exact absurd (s.le_of_mem_path mem) (Nat.not_le.mpr (s.descending i j linked))

/-- Everything on a path but its last address lies below the top. -/
theorem path_eq_append_top (i : ℕ) : s.path i = (s.path i).dropLast ++ [s.top i] ∧ link (s.cell (s.top i)) = none := by
  induction i using s.link_induction with
  | step i ih =>
    cases linked : link (s.cell i) with
    | none =>
      rw [s.path_of_none linked, s.top_of_none linked]
      exact ⟨rfl, linked⟩
    | some j =>
      obtain ⟨split, ends⟩ := ih j linked
      rw [s.path_of_some linked, s.top_of_some linked]
      refine ⟨?_, ends⟩
      rw [dropLast_cons_of_ne_nil (by rw [s.path_eq j]; exact cons_ne_nil _ _),
        cons_append, ← split]

theorem link_top (i : ℕ) : link (s.cell (s.top i)) = none :=
  (s.path_eq_append_top i).2

/-- The top is the only address of a path without a link. -/
theorem eq_top_of_mem_path (mem : j ∈ s.path i) (ends : link (s.cell j) = none) : j = s.top i := by
  induction i using s.link_induction with
  | step i ih =>
    rcases s.mem_path_iff.mp mem with rfl | ⟨k, linked, mem⟩
    · exact (s.top_of_none ends).symm
    · rw [s.top_of_some linked]
      exact ih k linked mem

/-- Paths only read links: stores that agree on the links of a path share it. -/
theorem path_congr {γ : Type*} {link' : γ → Option ℕ} (t : LinkedStore γ link')
    (same : ∀ k ∈ s.path i, link' (t.cell k) = link (s.cell k)) : t.path i = s.path i := by
  induction i using s.link_induction with
  | step i ih =>
    have here := same i (s.self_mem_path i)
    cases linked : link (s.cell i) with
    | none => rw [s.path_of_none linked, t.path_of_none (here.trans linked)]
    | some j =>
      rw [s.path_of_some linked, t.path_of_some (here.trans linked), ih j linked]
      intro k mem
      exact same k (s.mem_path_iff.mpr (.inr ⟨j, linked, mem⟩))

end

/-- Stores that agree on every cell of a path have the same lineage. -/
theorem lineage_congr (s t : LinkedStore α link)
    (same : ∀ k ∈ s.path i, t.cell k = s.cell k) : t.lineage i = s.lineage i := by
  rw [lineage, lineage, s.path_congr t (fun k mem => congrArg link (same k mem))]
  exact map_congr_left same

/-- Rewriting a cell without touching its link keeps every path. -/
theorem path_modify (s : LinkedStore α link) {f : α → α} {keeps} (kept : link (f (s.cell i)) = link (s.cell i))
    (m : ℕ) : (s.modify i f keeps).path m = s.path m := by
  refine s.path_congr _ (fun k _ => ?_)
  rw [cell_modify]
  split_ifs with same
  · rw [kept, same]
  · rfl

/-- Allocation keeps the paths of allocated addresses. -/
theorem path_push (s : LinkedStore α link) (bound : ∀ j, link a = some j → j < s.size)
    (inside : m < s.size) : (s.push a).path m = s.path m := by
  refine s.path_congr _ (fun k mem => ?_)
  rw [s.cell_push bound, if_neg ((s.le_of_mem_path mem).trans_lt inside).ne]

theorem path_push_self (s : LinkedStore α link) (linked : link a = some j)
    (inside : j < s.size) : (s.push a).path s.size = s.size :: s.path j := by
  have bound : ∀ k, link a = some k → k < s.size := by
    intro k linked'
    exact Option.some.inj (linked.symm.trans linked') ▸ inside
  have here : link ((s.push a).cell s.size) = some j := by rw [s.cell_push bound, if_pos rfl, linked]
  rw [path_of_some _ here, s.path_push bound inside]

/-- Dropping the link of `n` cuts every path through `n` right after `n`. -/
theorem path_cut (s t : LinkedStore α link) {n : ℕ} (cut : link (t.cell n) = none)
    (same : ∀ k ∈ s.path m, k ≠ n → n ∈ s.path k → link (t.cell k) = link (s.cell k))
    (through : n ∈ s.path m) : ∃ lower, s.path m = lower ++ s.path n ∧ t.path m = lower ++ [n] ∧
      ∀ k ∈ lower, k ∈ s.path m ∧ k ≠ n ∧ n ∈ s.path k := by
  induction m using s.link_induction with
  | step m ih =>
    rcases s.mem_path_iff.mp through with rfl | ⟨j, linked, mem⟩
    · exact ⟨[], rfl, t.path_of_none cut, fun _ mem => absurd mem not_mem_nil⟩
    · have other : m ≠ n := by
        rintro rfl
        exact absurd (s.le_of_mem_path mem) (Nat.not_le.mpr (s.descending _ j linked))
      have kept := same m (s.self_mem_path m) other through
      have inside (k : ℕ) (below : k ∈ s.path j) : k ∈ s.path m := s.mem_path_iff.mpr (.inr ⟨j, linked, below⟩)
      obtain ⟨lower, before, after, members⟩ := ih j linked (fun k below => same k (inside k below)) mem
      refine ⟨m :: lower, ?_, ?_, ?_⟩
      · rw [s.path_of_some linked, before, cons_append]
      · rw [t.path_of_some (kept.trans linked), after, cons_append]
      · intro k listed
        rcases mem_cons.mp listed with rfl | later
        · exact ⟨s.self_mem_path _, other, through⟩
        · exact ⟨inside k (members k later).1, (members k later).2⟩

/-- The cells of a cut path below `n` are those of the old one, followed by the new `n` alone. -/
theorem lineage_cut (s t : LinkedStore α link) {n : ℕ} (cut : link (t.cell n) = none)
    (same : ∀ k ∈ s.path m, k ≠ n → n ∈ s.path k → t.cell k = s.cell k) (through : n ∈ s.path m) :
    ∃ lower, s.lineage m = lower ++ s.lineage n ∧ t.lineage m = lower ++ [t.cell n] := by
  obtain ⟨lower, before, after, members⟩ := s.path_cut t cut
    (fun k mem other above => congrArg link (same k mem other above)) through
  refine ⟨lower.map s.cell, ?_, ?_⟩
  · rw [lineage, before, map_append, lineage]
  · rw [lineage, after, map_append, map_singleton]
    refine congrArg (· ++ [t.cell n]) (map_congr_left fun k listed => ?_)
    obtain ⟨mem, other, above⟩ := members k listed
    exact same k mem other above

end LinkedStore

end Teleno.Library
