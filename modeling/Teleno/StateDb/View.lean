import Teleno.StateDb.Skeleton

/-! # What a node shows

The view of a node maps every serialized key to the object that the node answers with. Writing to a
node updates its view at one key and leaves the view of every node outside its subtree alone; children,
clones and squashed children carry views over to other nodes. What a node shows is listed in the order
of the keys.
-/

namespace Teleno

open Option Function

theorem KeyCodec.serialize_injective (codec : KeyCodec) : Injective codec.serialize := by
  intro left right same
  have parsed := congrArg codec.parse same
  rw [codec.parse_serialize, codec.parse_serialize] at parsed
  exact some.inj parsed

namespace StateDb

open Library StateDelta List

/-- What a node answers for each serialized key. -/
abbrev View := Bytes → Option Bytes

namespace View

variable (codec : KeyCodec) (view : View) {space space' : ObjectSpace} {key key' : Bytes}

def object (space : ObjectSpace) (key : Bytes) : Option Bytes := view (codec.serialize ⟨space, key⟩)

/-- The view after an object has been written, or removed. -/
def write (space : ObjectSpace) (key : Bytes) (value : Option Bytes) : View :=
  Function.update view (codec.serialize ⟨space, key⟩) value

theorem object_write (value : Option Bytes) : object codec (write codec view space key value) space' key' =
    if space' = space ∧ key' = key then value else object codec view space' key' := by
  simp [object, write, update_apply, codec.serialize_injective.eq_iff]

end View

namespace Heap

variable (h : Heap) {p q : ℕ}

/-- `h'` is `h` with other objects and tombstones in one delta. -/
structure Rewrites (h : Heap) (p : ℕ) (h' : Heap) : Prop where
  size_eq : h'.size = h.size
  frame : (h.cell p).Frame (h'.cell p)
  others : ∀ q ≠ p, h'.cell q = h.cell q

namespace Rewrites

variable {h} {h' h'' : Heap}

theorem refl (h : Heap) (p : ℕ) : h.Rewrites p h := ⟨rfl, .refl _, fun _ _ => rfl⟩

theorem trans (first : h.Rewrites p h') (second : h'.Rewrites p h'') : h.Rewrites p h'' where
  size_eq := second.size_eq.trans first.size_eq
  frame := first.frame.trans second.frame
  others q other := (second.others q other).trans (first.others q other)

theorem modify {f : StateDelta → StateDelta} {keeps} (frame : (h.cell p).Frame (f (h.cell p))) :
    h.Rewrites p (h.modify p f keeps) where
  size_eq := rfl
  frame := by rw [h.cell_modify_self]; exact frame
  others _ other := h.cell_modify_of_ne f keeps other

theorem cell_frame (rewrites : h.Rewrites p h') (q : ℕ) : (h.cell q).Frame (h'.cell q) := by
  rcases eq_or_ne q p with rfl | other
  · exact rewrites.frame
  · rw [rewrites.others q other]
    exact .refl _

theorem toExtends (rewrites : h.Rewrites p h') : h.Extends h' where
  size_le := rewrites.size_eq.ge
  frame q _ := rewrites.cell_frame q
  synced before q below := (rewrites.cell_frame q).synced (before q (rewrites.size_eq ▸ below))

/-- Nodes outside the subtree of the rewritten delta show what they showed. -/
theorem find_of_not_mem (rewrites : h.Rewrites p h') (outside : p ∉ h.path q) : h'.find q = h.find q := by
  funext key
  refine h.find_congr h' (fun r mem => rewrites.others r ?_) key
  rintro rfl
  exact outside mem

end Rewrites

section Write

theorem rewrites_put (key value : Bytes) : h.Rewrites p (h.put p key value) :=
  .modify (f := (·.put key value)) (.put _ key value)

theorem rewrites_erase (key : Bytes) (preserveTombstone : Bool) : h.Rewrites p (h.erase p key preserveTombstone) := by
  rw [Heap.erase]
  split
  · exact .modify (f := (·.remove key)) (.remove _ key)
  · exact .refl h p

/-- How a lookup in a delta continues above it. -/
theorem find_eq (p : ℕ) (key : Bytes) : h.find p key = ((h.cell p).get key).or
    (if (h.cell p).isRemoved key then none else (h.cell p).parent.bind fun q => h.find q key) := by
  cases up : (h.cell p).parent with
  | some q => exact h.find_of_some up key
  | none =>
    rw [find, LinkedStore.lineage, h.path_of_none up, map_singleton, findIn_singleton, bind_none,
      ite_self, or_none]

/-- Nothing above a delta sees it. -/
theorem Rewrites.above {h h' : Heap} (rewrites : h.Rewrites p h') (key : Bytes) :
    ((h'.cell p).parent.bind fun q => h'.find q key) = (h.cell p).parent.bind fun q => h.find q key := by
  rw [rewrites.frame.parent_eq]
  cases up : (h.cell p).parent with
  | none => rfl
  | some q =>
    rw [bind_some, bind_some, rewrites.find_of_not_mem]
    intro mem
    have above := h.le_of_mem_path mem
    have below := h.descending p q up
    omega

theorem find_put (held : (h.cell p).backend.isSome) (key value : Bytes) :
    (h.put p key value).find p = update (h.find p) key (some value) := by
  funext k
  rw [find_eq, (h.rewrites_put key value).above, Heap.put, h.cell_modify_self, get_put held,
    isRemoved_put, update_apply]
  rcases eq_or_ne k key with rfl | other
  · rw [if_pos rfl, if_pos rfl, some_or]
  · rw [if_neg other.symm, if_neg other, find_eq h]

theorem find_erase (key : Bytes) (preserveTombstone : Bool) :
    (h.erase p key preserveTombstone).find p = update (h.find p) key none := by
  funext k
  rw [Heap.erase]
  split_ifs with absent
  · have rewrites : h.Rewrites p (h.modify p (·.remove key) (fun _ => .inl rfl)) := .modify (.remove (h.cell p) key)
    rw [find_eq, rewrites.above, h.cell_modify_self, get_remove, isRemoved_remove, update_apply]
    rcases eq_or_ne k key with rfl | other
    · simp
    · rw [if_neg other.symm, if_neg other, find_eq h, decide_eq_false other.symm, Bool.false_or]
  · rw [Bool.or_eq_true, not_or, not_isSome_iff_eq_none] at absent
    rw [update_apply]
    split_ifs with same
    · rw [same, absent.1]
    · rfl

end Write

section Push

variable {d : StateDelta}

/-- Allocating a delta changes no view. -/
theorem find_push (d : StateDelta) (bound : q < h.size) : Heap.find (h.push d) q = h.find q := by
  funext key
  exact h.find_congr _ (fun r mem => h.cell_push_of_lt d ((h.le_of_mem_path mem).trans_lt bound)) key

/-- What a new delta shows is decided by its own objects and by its parent. -/
theorem find_push_self (linked : d.parent = some p) (bound : p < h.size) (key : Bytes) :
    Heap.find (h.push d) h.size key = (d.get key).or (if d.isRemoved key then none else h.find p key) := by
  have links : ∀ j, d.parent = some j → j < h.size := by
    intro j up
    obtain rfl := some.inj (linked.symm.trans up)
    exact bound
  rw [find_eq, h.cell_push links, if_pos rfl, linked, bind_some, find_push h d bound]

/-- A fresh child shows what its parent shows. -/
theorem find_makeChild (bound : p < h.size) (id : Multihash) (header : BlockHeader) :
    (h.makeChild p id header).find h.size = h.find p := by
  funext key
  rw [Heap.makeChild, find_push_self h (d := (h.cell p).makeChild p id header) rfl bound]
  simp [StateDelta.makeChild, StateDelta.get, StateDelta.objects, StateDelta.isRemoved]

/-- A clone shows what its original shows. -/
theorem find_clone (linked : (h.cell p).parent = some q) (bound : q < h.size) (id : Multihash)
    (header : BlockHeader) : (h.clone p id header).find h.size = h.find p := by
  have objects : ((h.cell p).clone id header).objects = (h.cell p).objects := by
    rw [StateDelta.objects, StateDelta.objects, StateDelta.clone, Option.map_map]
    rfl
  funext key
  rw [Heap.clone, find_push_self h (d := (h.cell p).clone id header) linked bound, h.find_of_some linked,
    StateDelta.get, objects]
  rfl

end Push

/-- Squashing a child shows on its parent what the child showed. -/
theorem find_squash (linked : (h.cell p).parent = some q) (held : (h.cell q).backend.isSome) :
    (h.squash p).find q = h.find p ∧ h.Rewrites q (h.squash p) := by
  have squashed : h.squash p = h.modify q (·.absorb (h.cell p)) (fun d => .inl (d.absorb_parent _)) := by
    simp [Heap.squash, linked]
  have rewrites : h.Rewrites q (h.squash p) := squashed ▸ .modify (.absorb _ _)
  refine ⟨?_, rewrites⟩
  funext key
  rw [find_eq, rewrites.above, h.find_of_some linked, squashed, h.cell_modify_self, get_absorb held]
  cases written : (h.cell p).get key with
  | some value => rfl
  | none =>
    rw [none_or, none_or, find_eq h q]
    cases up : (h.cell q).parent with
    | none => cases removed : (h.cell p).isRemoved key <;> simp
    | some r =>
      rw [isRemoved_absorb (by rw [up]; exact some_ne_none r), written]
      cases removed : (h.cell p).isRemoved key <;> simp

section Order

/-- The keys a node shows, in order. -/
def visibleKeys (p : ℕ) : List Bytes :=
  sortKeys (((h.lineage p).flatMap fun d => d.objects.keys).filter fun key => (h.find p key).isSome)

/-- The first key a node shows after a given one. -/
def nextKey (p : ℕ) (key : Bytes) : Option Bytes := (h.visibleKeys p).find? fun k => compare key k == .lt

/-- The last key a node shows before a given one. -/
def prevKey (p : ℕ) (key : Bytes) : Option Bytes :=
  (h.visibleKeys p).reverse.find? fun k => compare k key == .lt

/-- The object at a neighbouring key, with its key, if it lies in the same space. -/
def neighbour (codec : KeyCodec) (p : ℕ) (space : ObjectSpace) (found : Option Bytes) : Option (Bytes × Bytes) :=
  found.bind fun next => (codec.parse next).bind fun key =>
    if key.space = space then (h.find p next).map fun value => (value, key.key) else none

/-- The merged iteration over the deltas is taken as the sorted list of what the node shows. -/
def getNextObject (codec : KeyCodec) (p : ℕ) (space : ObjectSpace) (key : Bytes) : Option (Bytes × Bytes) :=
  h.neighbour codec p space (h.nextKey p (codec.serialize ⟨space, key⟩))

def getPrevObject (codec : KeyCodec) (p : ℕ) (space : ObjectSpace) (key : Bytes) : Option (Bytes × Bytes) :=
  h.neighbour codec p space (h.prevKey p (codec.serialize ⟨space, key⟩))

variable {key : Bytes}

/-- What a lookup finds is stored in one of the deltas it visits. -/
theorem exists_get_of_findIn {deltas : List StateDelta} (found : (findIn deltas key).isSome) :
    ∃ d ∈ deltas, (d.get key).isSome := by
  induction deltas with
  | nil => contradiction
  | cons d rest ih =>
    rw [findIn_cons] at found
    cases own : d.get key with
    | some value => exact ⟨d, mem_cons_self, by rw [own]; rfl⟩
    | none =>
      rw [own, none_or] at found
      split at found
      · contradiction
      · obtain ⟨d', mem, stored⟩ := ih found
        exact ⟨d', mem_cons_of_mem _ mem, stored⟩

theorem mem_visibleKeys : key ∈ h.visibleKeys p ↔ (h.find p key).isSome := by
  rw [visibleKeys, sortKeys, mem_insertionSort, mem_filter, mem_flatMap]
  refine ⟨And.right, fun found => ⟨?_, found⟩⟩
  obtain ⟨d, mem, stored⟩ := exists_get_of_findIn found
  refine ⟨d, mem, ?_⟩
  rw [Std.ExtTreeMap.mem_keys, Std.ExtTreeMap.mem_iff_isSome_getElem?]
  exact stored

theorem find_of_nextKey {next : Bytes} (found : h.nextKey p key = some next) : (h.find p next).isSome :=
  h.mem_visibleKeys.mp (mem_of_find?_eq_some found)

end Order

end Heap

end StateDb

end Teleno
