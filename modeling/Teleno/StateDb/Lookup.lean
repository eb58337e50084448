import Teleno.StateDb.StateDelta

/-! # What each delta operation does to a lookup

A lookup stops at the first delta that holds the key or has removed it. Every mutation of a delta
is described here by the two questions a lookup asks: which value the delta holds for a key, and
whether it has a tombstone for it.
-/

namespace Teleno.StateDb

open Library Option

namespace StateDelta

theorem get_eq (d : StateDelta) (k : Bytes) : d.get k = d.backend.bind (·.get k) := by
  cases held : d.backend with
  | none => simp [get, objects, held]
  | some b => simp [get, objects, held, Backend.get]

variable {d : StateDelta}

theorem get_put (held : d.backend.isSome) (key value k : Bytes) :
    (d.put key value).get k = if key = k then some value else d.get k := by
  obtain ⟨b, owned⟩ := isSome_iff_exists.mp held
  simp [get_eq, put, owned]

@[simp] theorem isRemoved_put (d : StateDelta) (key value k : Bytes) :
    (d.put key value).isRemoved k = d.isRemoved k := rfl

@[simp] theorem get_remove (d : StateDelta) (key k : Bytes) :
    (d.remove key).get k = if key = k then none else d.get k := by
  cases owned : d.backend with
  | none | some => simp [get_eq, remove, owned]

@[simp] theorem isRemoved_remove (d : StateDelta) (key k : Bytes) :
    (d.remove key).isRemoved k = (decide (key = k) || d.isRemoved k) := by
  rw [Bool.eq_iff_iff]
  simp [isRemoved, remove, Std.ExtTreeSet.contains_insert]

/-- Replaying a delta gives the delta the first say and hides what it removed. -/
theorem get_writeTo (d : StateDelta) (b : Backend) (k : Bytes) :
    (d.writeTo b).get k = (d.get k).or (if d.isRemoved k then none else b.get k) := by
  have erased : (d.removedObjects.toList.foldl (fun b key => b.erase key) b).objects =
      d.removedObjects.toList.foldl (fun m key => m.erase key) b.objects :=
    (List.foldl_hom Backend.objects (fun _ _ => rfl)).symm
  have written (b : Backend) : (d.objects.toList.foldl (fun b entry => b.put entry.1 entry.2) b).objects =
      d.objects.toList.foldl (fun m entry => m.insert entry.1 entry.2) b.objects :=
    (List.foldl_hom Backend.objects (fun _ _ => rfl)).symm
  rw [Backend.get, writeTo, written, erased, getElem?_foldl_insert_toList, getElem?_foldl_erase]
  simp only [get, Backend.get, isRemoved, Std.ExtTreeSet.mem_toList, Std.ExtTreeSet.mem_iff_contains]
  congr

theorem get_absorb (held : d.backend.isSome) (child : StateDelta) (k : Bytes) :
    (d.absorb child).get k = (child.get k).or (if child.isRemoved k then none else d.get k) := by
  obtain ⟨b, owned⟩ := isSome_iff_exists.mp held
  rw [absorb_eq]
  simp [get_eq d, get_eq { d with backend := _, removedObjects := _ }, owned, map_some, bind_some, get_writeTo]

/-- A non-root keeps a tombstone unless the absorbed child writes the key. -/
theorem isRemoved_absorb (inner : d.parent ≠ none) (child : StateDelta) (k : Bytes) :
    (d.absorb child).isRemoved k = ((d.isRemoved k || child.isRemoved k) && (child.get k).isNone) := by
  have interior : d.isRoot = false := by
    rw [isRoot, isNone_eq_false_iff, isSome_iff_ne_none]
    exact inner
  rw [absorb_eq, Bool.eq_iff_iff]
  simp only [isRemoved, interior, Bool.false_eq_true, if_false, ← Std.ExtTreeSet.mem_iff_contains,
    mem_foldl_erase_toList, mem_foldl_insert, Bool.and_eq_true, Bool.or_eq_true,
    Std.ExtTreeSet.mem_toList, get, Std.ExtTreeMap.mem_iff_isSome_getElem?,
    not_isSome_iff_eq_none, isNone_iff_eq_none]

end StateDelta

theorem findIn_cons (d : StateDelta) (parents : List StateDelta) (k : Bytes) :
    findIn (d :: parents) k = (d.get k).or (if d.isRemoved k then none else findIn parents k) := by
  rw [findIn]
  cases d.get k <;> rfl

/-- The deltas below a point only see the answers given there. -/
theorem findIn_append_congr {upper upper' : List StateDelta} {k : Bytes} (same : findIn upper k = findIn upper' k)
    (lower : List StateDelta) : findIn (lower ++ upper) k = findIn (lower ++ upper') k := by
  induction lower with
  | nil => exact same
  | cons d rest ih => rw [List.cons_append, List.cons_append, findIn_cons, findIn_cons, ih]

/-- A single delta without parents answers with its own objects. -/
theorem findIn_singleton (d : StateDelta) (k : Bytes) : findIn [d] k = d.get k := by
  rw [findIn_cons, findIn, ite_self, or_none]

namespace Heap

theorem find_of_some (h : Heap) {p q : ℕ} (up : (h.cell p).parent = some q) (k : Bytes) :
    h.find p k = ((h.cell p).get k).or (if (h.cell p).isRemoved k then none else h.find q k) := by
  rw [find, h.lineage_of_some up, findIn_cons, find]

/-- Lookups only read the deltas on the path. -/
theorem find_congr (h h' : Heap) {p : ℕ} (same : ∀ q ∈ h.path p, h'.cell q = h.cell q) (k : Bytes) :
    h'.find p k = h.find p k := by
  rw [find, find, h.lineage_congr h' same]

end Heap

end Teleno.StateDb
