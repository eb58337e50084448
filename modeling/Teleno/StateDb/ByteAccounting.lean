import Mathlib.Algebra.BigOperators.Finprod
import Teleno.StateDb.View

/-! # Byte accounting

`put_object` and `remove_object` return by how many bytes the call changed what the node shows. Each of them changes
the view of the node at one key, so over any sequence of calls the returned counts add up to the difference between
the bytes shown at the end and at the beginning.
-/

namespace Teleno.StateDb

open Library List Function

/-- The bytes of a visible object: its serialized key and its value. -/
def objectSize (key : Bytes) (value : Option Bytes) : ℤ := value.elim 0 fun value => key.length + value.length

/-- The bytes of all objects that a node shows. -/
def Heap.visibleBytes (h : Heap) (p : ℕ) : ℤ :=
  ((h.visibleKeys p).dedup.map fun key => objectSize key (h.find p key)).sum

inductive ObjectCall where
  | putObject (space : ObjectSpace) (key value : Bytes)
  | removeObject (space : ObjectSpace) (key : Bytes) (preserveTombstone : Bool)
deriving DecidableEq

def ObjectCall.apply (codec : KeyCodec) (p : ℕ) (h : Heap) : ObjectCall → Except StateDbError (ℤ × Heap)
  | putObject space key value => h.putObject codec p space key value
  | removeObject space key preserveTombstone => h.removeObject codec p space key preserveTombstone

/-- The sum of what the calls returned, and the heap after them. A call on a finalized node throws. -/
structure ByteCount where
  returned : ℤ := 0
  heap : Heap

def ByteCount.next (codec : KeyCodec) (p : ℕ) (count : ByteCount) (call : ObjectCall) : ByteCount :=
  match call.apply codec p count.heap with
  | .ok (bytes, heap) => ⟨count.returned + bytes, heap⟩
  | .error _ => count

def countBytes (codec : KeyCodec) (p : ℕ) (h : Heap) (calls : List ObjectCall) : ByteCount :=
  calls.foldl (ByteCount.next codec p) { heap := h }

section Views

variable {h h' : Heap} {p : ℕ} {key : Bytes}

theorem objectSize_support (h : Heap) (p : ℕ) :
    (support fun key => objectSize key (h.find p key)) ⊆ (h.visibleKeys p).dedup.toFinset := by
  intro key counted
  rw [coe_toFinset, Set.mem_ofPred_eq, mem_dedup, h.mem_visibleKeys, Option.isSome_iff_ne_none]
  intro absent
  rw [mem_support, absent] at counted
  exact counted rfl

/-- The bytes shown are summed over all keys, of which finitely many count. -/
theorem Heap.visibleBytes_eq (h : Heap) (p : ℕ) : h.visibleBytes p = ∑ᶠ key, objectSize key (h.find p key) := by
  rw [finsum_eq_sum_of_support_subset _ (objectSize_support h p), Heap.visibleBytes,
    sum_toFinset _ (nodup_dedup _)]

/-- A change at one key changes the bytes by that object. -/
theorem Heap.visibleBytes_update {value : Option Bytes} (changed : h'.find p = update (h.find p) key value) :
    h'.visibleBytes p - h.visibleBytes p = objectSize key value - objectSize key (h.find p key) := by
  have finite (h : Heap) : (support fun key => objectSize key (h.find p key)).Finite :=
    (Finset.finite_toSet _).subset (objectSize_support h p)
  rw [visibleBytes_eq, visibleBytes_eq, ← finsum_sub_distrib (finite h') (finite h), finsum_eq_single _ key, changed,
    update_self]
  intro other differs
  rw [changed, update_of_ne differs, sub_self]

end Views

section Calls

variable {codec : KeyCodec} {h h' : Heap} {p : ℕ} {bytes : ℤ}

/-- A call that returns has changed one key, and returns the difference. -/
theorem apply_eq_ok (held : (h.cell p).backend.isSome) {call : ObjectCall}
    (ok : call.apply codec p h = .ok (bytes, h')) :
    bytes = h'.visibleBytes p - h.visibleBytes p ∧ (h'.cell p).backend.isSome := by
  cases call with
  | putObject space key value =>
    rw [ObjectCall.apply, Heap.putObject] at ok
    split_ifs at ok
    cases ok
    refine ⟨?_, ?_⟩
    · rw [Heap.visibleBytes_update (h.find_put held _ value), objectSize, objectSize]
      cases h.find p (codec.serialize ⟨space, key⟩) with
      | none => simp
      | some old => simp; omega
    · rw [Heap.put, h.cell_modify_self, StateDelta.put, Option.isSome_map]
      exact held
  | removeObject space key preserveTombstone =>
    rw [ObjectCall.apply, Heap.removeObject] at ok
    split_ifs at ok
    cases ok
    refine ⟨?_, ?_⟩
    · rw [Heap.visibleBytes_update (h.find_erase _ preserveTombstone), objectSize, objectSize]
      cases h.find p (codec.serialize ⟨space, key⟩) with
      | none => simp
      | some old => simp; omega
    · rw [(h.rewrites_erase _ preserveTombstone).frame.held_eq]
      exact held

end Calls

namespace ByteCount

variable {p : ℕ} {count : ByteCount}

/-- One call adds to the count what it adds to the view. -/
theorem next_grows (codec : KeyCodec) (held : (count.heap.cell p).backend.isSome) (call : ObjectCall) :
    (count.next codec p call).returned - count.returned =
        (count.next codec p call).heap.visibleBytes p - count.heap.visibleBytes p ∧
      ((count.next codec p call).heap.cell p).backend.isSome := by
  rw [next]
  cases outcome : call.apply codec p count.heap with
  | error e => exact ⟨by rw [sub_self, sub_self], held⟩
  | ok result =>
    obtain ⟨bytes, heap⟩ := result
    obtain ⟨grown, stays⟩ := apply_eq_ok held outcome
    exact ⟨by dsimp only; omega, stays⟩

theorem foldl_grows (codec : KeyCodec) (held : (count.heap.cell p).backend.isSome) (calls : List ObjectCall) :
    (calls.foldl (next codec p) count).returned - count.returned =
      (calls.foldl (next codec p) count).heap.visibleBytes p - count.heap.visibleBytes p := by
  induction calls generalizing count with
  | nil => rw [foldl_nil, sub_self, sub_self]
  | cons call rest ih =>
    obtain ⟨first, stays⟩ := next_grows codec held call
    have others := ih stays
    rw [foldl_cons]
    omega

end ByteCount

/-- The returned byte counts add up to the growth of what the node shows. -/
theorem returned_bytes_telescope (codec : KeyCodec) (h : Heap) (p : ℕ) (held : (h.cell p).backend.isSome)
    (calls : List ObjectCall) :
    (countBytes codec p h calls).returned = (countBytes codec p h calls).heap.visibleBytes p - h.visibleBytes p := by
  have grown : (countBytes codec p h calls).returned - 0 = _ := ByteCount.foldl_grows codec held calls
  rwa [sub_zero] at grown

/-- On an empty root, an object is written, overwritten, removed twice and written again. -/
theorem returned_bytes_telescope_root :
    let h : Heap := Heap.empty.push { backend := some {} }
    let calls : List ObjectCall := [.putObject {} [1] [2], .putObject {} [1] [3, 4], .removeObject {} [1] false,
      .removeObject {} [1] true, .putObject {} [1] [5]]
    (countBytes .transparent 0 h calls).returned =
      (countBytes .transparent 0 h calls).heap.visibleBytes 0 - h.visibleBytes 0 :=
  returned_bytes_telescope _ _ 0 rfl _

end Teleno.StateDb
