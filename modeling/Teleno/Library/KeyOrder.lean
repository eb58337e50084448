import Mathlib.Data.List.Infix
import Std.Data.ExtTreeMap.Lemmas

/-! # Lists as the keys of an ordered map

Keys are lists in lexicographic order. The keys with a common start lie together, so a scan that stops at the first
key without it has seen all of them, and the entries that a scan finds are determined by what the map holds.
-/

namespace Teleno.Library

open List

namespace KeyOrder

variable {α β : Type}

section Lexicographic

variable [Ord α]

theorem compare_cons (x y : α) (xs ys : List α) : compare (x :: xs) (y :: ys) = (compare x y).then (compare xs ys) := by
  rw [List.compare_eq_compareLex]
  exact List.compareLex_cons_cons

theorem compare_append [Std.ReflOrd α] (common xs ys : List α) :
    compare (common ++ xs) (common ++ ys) = compare xs ys := by
  induction common with
  | nil => rfl
  | cons c common ih =>
    have reflexive : compare c c = .eq := Std.ReflCmp.compare_self
    rw [cons_append, cons_append, compare_cons, reflexive, ih]
    rfl

/-- Lists of one length are compared by their last elements only if the others agree. -/
theorem compare_concat {xs ys : List α} (length : xs.length = ys.length) (x y : α) :
    compare (xs ++ [x]) (ys ++ [y]) = (compare xs ys).then (compare x y) := by
  have last : compare [x] [y] = compare x y := by
    rw [compare_cons]
    exact Ordering.then_eq
  induction xs generalizing ys with
  | nil =>
    obtain rfl := eq_nil_of_length_eq_zero length.symm
    exact last
  | cons c xs ih =>
    obtain ⟨d, ys, rfl⟩ := exists_cons_of_length_eq_add_one length.symm
    rw [cons_append, cons_append, compare_cons, compare_cons, ih (Nat.succ.inj length), Ordering.then_assoc]

/-- What lies between two keys has their common start. -/
theorem start_of_between [Std.TransOrd α] [Std.LawfulEqOrd α] {common lower upper key : List α}
    (startsLower : common <+: lower) (startsUpper : common <+: upper) (above : (compare lower key).isLE)
    (below : (compare key upper).isLE) : common <+: key := by
  induction common generalizing lower upper key with
  | nil => exact nil_prefix
  | cons c common ih =>
    obtain ⟨lower, rfl⟩ := startsLower
    obtain ⟨upper, rfl⟩ := startsUpper
    rcases key with _ | ⟨k, key⟩
    · rw [List.compare_eq_compareLex] at above
      contradiction
    · rw [cons_append, compare_cons, Ordering.isLE_then_iff_and] at above
      rw [cons_append, compare_cons, Ordering.isLE_then_iff_and] at below
      obtain rfl : c = k := Std.LawfulEqCmp.eq_of_compare (Std.OrientedCmp.isLE_antisymm above.1 below.1)
      have reflexive : compare c c = .eq := Std.ReflCmp.compare_self
      refine (prefix_cons_inj c).mpr (ih (prefix_append _ lower) (prefix_append _ upper) ?_ ?_)
      · exact above.2.resolve_left (by rw [reflexive]; decide)
      · exact below.2.resolve_left (by rw [reflexive]; decide)

end Lexicographic

section Scan

variable {p : α → Bool} {list : List α}

/-- If what passes a test always comes first, a scan up to the first failure finds all of it. -/
theorem takeWhile_eq_filter (closed : list.Pairwise fun x y => p y → p x) : list.takeWhile p = list.filter p := by
  induction list with
  | nil => rfl
  | cons x list ih =>
    obtain ⟨first, closed⟩ := pairwise_cons.mp closed
    by_cases passes : p x
    · rw [takeWhile_cons_of_pos passes, filter_cons_of_pos passes, ih closed]
    · have none : list.filter p = [] := filter_eq_nil_iff.mpr fun y mem passes' => passes (first y mem passes')
      rw [takeWhile_cons_of_neg passes, filter_cons_of_neg passes, none]

/-- A search finds what comes before everything else that passes the test. -/
theorem find?_of_pairwise {r : α → α → Prop} {x : α} (sorted : list.Pairwise r)
    (found : list.find? p = some x) : x ∈ list ∧ p x = true ∧ ∀ y ∈ list, p y = true → y = x ∨ r x y := by
  refine ⟨mem_of_find?_eq_some found, find?_some found, fun y mem passes => ?_⟩
  obtain ⟨-, before, after, parts, earlier⟩ := find?_eq_some_iff_append.mp found
  rw [parts] at mem sorted
  rcases mem_append.mp mem with missed | rest
  · have fails := earlier y missed
    rw [passes] at fails
    contradiction
  · exact (mem_cons.mp rest).imp_right
      fun later => rel_of_pairwise_cons (pairwise_append.mp sorted).2.1 later

/-- The entries whose keys pass a test, in order, are the sorted list of what the map holds under such keys. -/
theorem filter_toList_eq [Ord α] [Std.TransOrd α] [Std.LawfulEqOrd α] {map : Std.ExtTreeMap α β}
    {entries : List (α × β)} (sorted : entries.Pairwise fun x y => compare x.1 y.1 = .lt)
    (holds : ∀ entry, entry ∈ entries ↔ map[entry.1]? = some entry.2 ∧ p entry.1) :
    map.toList.filter (fun entry => p entry.1) = entries := by
  have irreflexive {x y : α × β} (less : compare x.1 y.1 = .lt) : x ≠ y := by
    rintro rfl
    have reflexive : compare x.1 x.1 = .eq := Std.ReflCmp.compare_self
    rw [reflexive] at less
    contradiction
  have sorted' := map.ordered_keys_toList.filter fun entry => p entry.1
  refine Perm.eq_of_pairwise (fun x y _ _ less greater => ?_) sorted' sorted ?_
  · exact absurd (Std.TransCmp.lt_trans less greater) (fun self => irreflexive self rfl)
  · refine (perm_ext_iff_of_nodup (sorted'.imp irreflexive) (sorted.imp irreflexive)).mpr fun entry => ?_
    rw [mem_filter, holds, Std.ExtTreeMap.mem_toList_iff_getElem?_eq_some]

/-- What passes from some position on. -/
theorem filter_eq_drop {start : ℕ}
    (passes : ∀ i (bound : i < list.length), p list[i] ↔ start ≤ i) : list.filter p = list.drop start := by
  have before : (list.take start).filter p = [] := by
    refine filter_eq_nil_iff.mpr fun x mem pass => ?_
    obtain ⟨i, bound, rfl⟩ := mem_take_iff_getElem.mp mem
    have beyond := (passes i (by omega)).mp pass
    omega
  have after : (list.drop start).filter p = list.drop start := by
    refine filter_eq_self.mpr fun x mem => ?_
    obtain ⟨i, bound, rfl⟩ := mem_drop_iff_getElem.mp mem
    exact (passes (start + i) (by omega)).mpr (Nat.le_add_right _ _)
  conv_lhs => rw [← take_append_drop start list]
  rw [filter_append, before, after, nil_append]

/-- What passes up to some position. -/
theorem filter_eq_take {count : ℕ}
    (passes : ∀ i (bound : i < list.length), p list[i] ↔ i < count) : list.filter p = list.take count := by
  have before : (list.take count).filter p = list.take count := by
    refine filter_eq_self.mpr fun x mem => ?_
    obtain ⟨i, bound, rfl⟩ := mem_take_iff_getElem.mp mem
    exact (passes i (by omega)).mpr (by omega)
  have after : (list.drop count).filter p = [] := by
    refine filter_eq_nil_iff.mpr fun x mem pass => ?_
    obtain ⟨i, bound, rfl⟩ := mem_drop_iff_getElem.mp mem
    have within := (passes (count + i) (by omega)).mp pass
    omega
  conv_lhs => rw [← take_append_drop count list]
  rw [filter_append, before, after, append_nil]

end Scan

end KeyOrder

end Teleno.Library
