import Std.Data.ExtTreeMap.Lemmas
import Std.Data.ExtTreeSet.Lemmas
import Mathlib.Data.List.Basic

/-! # Replaying keys and entries into an ordered map

Erasing a list of keys hides exactly those keys. Inserting all entries of another map overlays
that map: its entries win, everything else shows through. The lemmas are stated for the loops that
visit one key or entry at a time, over maps and over sets of keys.
-/

namespace Teleno.Library

open Std List

variable {κ β : Type*} {cmp : κ → κ → Ordering} [TransCmp cmp] [LawfulEqCmp cmp]

private theorem getElem?_foldl_erase_cases (m : ExtTreeMap κ β cmp) (keys : List κ) (k : κ) :
    (k ∈ keys → (keys.foldl (fun m key => m.erase key) m)[k]? = none) ∧
      (k ∉ keys → (keys.foldl (fun m key => m.erase key) m)[k]? = m[k]?) := by
  classical
  induction keys generalizing m with
  | nil => simp
  | cons key rest ih =>
    obtain ⟨inside, outside⟩ := ih (m.erase key)
    rw [foldl_cons]
    by_cases later : k ∈ rest
    · exact ⟨fun _ => inside later, fun absent => absurd (mem_cons_of_mem _ later) absent⟩
    · rw [outside later, ExtTreeMap.getElem?_erase]
      by_cases here : key = k
      · simp [here]
      · simp [later, here, Ne.symm here]

theorem getElem?_foldl_erase (m : ExtTreeMap κ β cmp) (keys : List κ) (k : κ) [Decidable (k ∈ keys)] :
    (keys.foldl (fun m key => m.erase key) m)[k]? = if k ∈ keys then none else m[k]? := by
  split_ifs with inside
  · exact (getElem?_foldl_erase_cases m keys k).1 inside
  · exact (getElem?_foldl_erase_cases m keys k).2 inside

theorem getElem?_foldl_insert_toList [DecidableEq κ] (m other : ExtTreeMap κ β cmp) (k : κ) :
    (other.toList.foldl (fun m entry => m.insert entry.1 entry.2) m)[k]? = other[k]?.or m[k]? := by
  rw [← ExtTreeMap.insertMany_list_eq_foldl]
  cases found : other[k]? with
  | some v =>
    exact ExtTreeMap.getElem?_insertMany_list_of_mem ReflCmp.compare_self
      ExtTreeMap.distinct_keys_toList (ExtTreeMap.mem_toList_iff_getElem?_eq_some.mpr found)
  | none =>
    rw [Option.none_or]
    apply ExtTreeMap.getElem?_insertMany_list_of_contains_eq_false
    rw [ExtTreeMap.map_fst_toList_eq_keys, contains_eq_mem, decide_eq_false_iff_not, ExtTreeMap.mem_keys]
    intro present
    rw [ExtTreeMap.mem_iff_isSome_getElem?, found] at present
    contradiction

theorem mem_foldl_insert (set : ExtTreeSet κ cmp) (keys : List κ) (k : κ) :
    k ∈ keys.foldl (fun set key => set.insert key) set ↔ k ∈ set ∨ k ∈ keys := by
  induction keys generalizing set with
  | nil => simp
  | cons key rest ih =>
    rw [foldl_cons, ih, ExtTreeSet.mem_insert, LawfulEqCmp.compare_eq_iff_eq, mem_cons,
      eq_comm, or_assoc, or_left_comm]

theorem mem_foldl_erase_toList (set : ExtTreeSet κ cmp) (other : ExtTreeMap κ β cmp) (k : κ) :
    k ∈ other.toList.foldl (fun set entry => set.erase entry.1) set ↔ k ∈ set ∧ k ∉ other := by
  have erased (entries : List (κ × β)) (set : ExtTreeSet κ cmp) :
      k ∈ entries.foldl (fun set entry => set.erase entry.1) set ↔
        k ∈ set ∧ k ∉ entries.map Prod.fst := by
    induction entries generalizing set with
    | nil => simp
    | cons entry rest ih =>
      rw [foldl_cons, ih, ExtTreeSet.mem_erase, Ne, LawfulEqCmp.compare_eq_iff_eq, map_cons,
        mem_cons, not_or, eq_comm, and_assoc, and_left_comm]
  rw [erased, ExtTreeMap.map_fst_toList_eq_keys, ExtTreeMap.mem_keys]

end Teleno.Library
