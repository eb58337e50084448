import Teleno.StateDb.Commit
import Teleno.StateDb.Database

/-! # What object writes leave alone

Reading and writing objects, directly or through anonymous nodes, never touches the fields the fork
tree is built from, and keeps every disk in step with its backend.
-/

namespace Teleno.StateDb

open Library

namespace Backend

theorem Synced.put {b : Backend} (synced : b.Synced) (key value : Bytes) : (b.put key value).Synced := by
  intro db stored
  obtain ⟨old, found, rfl⟩ := Option.map_eq_some_iff.mp stored
  obtain ⟨idle, current⟩ := synced old found
  simp [RocksDb.write, idle, RocksDb.apply, current, Backend.put]

theorem Synced.erase {b : Backend} (synced : b.Synced) (key : Bytes) : (b.erase key).Synced := by
  intro db stored
  obtain ⟨old, found, rfl⟩ := Option.map_eq_some_iff.mp stored
  obtain ⟨idle, current⟩ := synced old found
  simp [RocksDb.write, idle, RocksDb.apply, current, Backend.erase]

end Backend

namespace StateDelta

/-- The delta's backend, if it has one, is in step with its disk. -/
def Synced (d : StateDelta) : Prop := ∀ b ∈ d.backend, b.Synced

/-- `d'` differs from `d` in its objects and tombstones only. -/
structure Frame (d d' : StateDelta) : Prop where
  parent_eq : d'.parent = d.parent
  id_eq : d'.id = d.id
  revision_eq : d'.revision = d.revision
  finalized_eq : d'.finalized = d.finalized
  header_eq : d'.blockHeader = d.blockHeader
  held_eq : d'.backend.isSome = d.backend.isSome
  synced : d.Synced → d'.Synced

namespace Frame

theorem refl (d : StateDelta) : Frame d d := ⟨rfl, rfl, rfl, rfl, rfl, rfl, fun synced => synced⟩

theorem trans {d d' d'' : StateDelta} (first : Frame d d') (second : Frame d' d'') : Frame d d'' where
  parent_eq := second.parent_eq.trans first.parent_eq
  id_eq := second.id_eq.trans first.id_eq
  revision_eq := second.revision_eq.trans first.revision_eq
  finalized_eq := second.finalized_eq.trans first.finalized_eq
  header_eq := second.header_eq.trans first.header_eq
  held_eq := second.held_eq.trans first.held_eq
  synced := second.synced ∘ first.synced

/-- Rewriting the backend by a function that keeps its header and its disk in step. -/
theorem of_map {d : StateDelta} {f : Backend → Backend} (header : ∀ b, (f b).header = b.header)
    (synced : ∀ b, b.Synced → (f b).Synced) (removed : KeySet) :
    Frame d { d with backend := d.backend.map f, removedObjects := removed } where
  parent_eq := rfl
  id_eq := rfl
  revision_eq := rfl
  finalized_eq := rfl
  header_eq := by cases owned : d.backend <;> simp [blockHeader, owned, header]
  held_eq := by rw [Option.isSome_map]
  synced := by
    intro before b stored
    obtain ⟨old, found, rfl⟩ := Option.map_eq_some_iff.mp stored
    exact synced old (before old found)

theorem put (d : StateDelta) (key value : Bytes) : Frame d (d.put key value) :=
  of_map (f := (·.put key value)) (fun _ => rfl) (fun _ synced => synced.put key value) _

theorem remove (d : StateDelta) (key : Bytes) : Frame d (d.remove key) :=
  of_map (f := (·.erase key)) (fun _ => rfl) (fun _ synced => synced.erase key) _

theorem absorb (d child : StateDelta) : Frame d (d.absorb child) := by
  rw [absorb_eq]
  refine of_map (fun b => ?_) (fun b synced => ?_) _
  · exact child.writeTo_preserves (motive := fun b' => b'.header = b.header) (fun _ _ _ same => same)
      (fun _ _ same => same) rfl
  · exact child.writeTo_preserves (fun _ key value synced => synced.put key value)
      (fun _ key synced => synced.erase key) synced

end Frame

end StateDelta

namespace Heap

/-- `h'` is `h` with more deltas and other objects in those of `h`. -/
structure Extends (h h' : Heap) : Prop where
  size_le : h.size ≤ h'.size
  frame : ∀ q < h.size, (h.cell q).Frame (h'.cell q)
  synced : (∀ q < h.size, (h.cell q).Synced) → ∀ q < h'.size, (h'.cell q).Synced

theorem Extends.refl (h : Heap) : h.Extends h := ⟨le_rfl, fun _ _ => .refl _, fun synced => synced⟩

theorem Extends.trans {h h' h'' : Heap} (first : h.Extends h') (second : h'.Extends h'') : h.Extends h'' where
  size_le := first.size_le.trans second.size_le
  frame q below := (first.frame q below).trans (second.frame q (below.trans_le first.size_le))
  synced := second.synced ∘ first.synced

theorem Extends.modify (h : Heap) (p : ℕ) {f : StateDelta → StateDelta} {keeps}
    (frame : (h.cell p).Frame (f (h.cell p))) : h.Extends (h.modify p f keeps) := by
  have frames (q : ℕ) : (h.cell q).Frame ((h.modify p f keeps).cell q) := by
    rw [h.cell_modify]
    split_ifs with same
    · exact same ▸ frame
    · exact .refl _
  exact ⟨le_rfl, fun q _ => frames q, fun synced q below => (frames q).synced (synced q below)⟩

theorem Extends.put (h : Heap) (p : ℕ) (key value : Bytes) : h.Extends (h.put p key value) :=
  .modify h p (f := (·.put key value)) (.put _ key value)

theorem Extends.erase (h : Heap) (p : ℕ) (key : Bytes) (preserveTombstone : Bool) :
    h.Extends (h.erase p key preserveTombstone) := by
  rw [Heap.erase]
  split
  · exact .modify h p (f := (·.remove key)) (.remove _ key)
  · exact .refl h

theorem Extends.push (h : Heap) {d : StateDelta} (synced : d.Synced) : h.Extends (h.push d) := by
  by_cases bound : ∀ j, d.parent = some j → j < h.size
  · refine ⟨by rw [h.size_push bound]; omega, ?_, ?_⟩
    · intro q below
      rw [h.cell_push_of_lt d below]
      exact .refl _
    · intro before q below
      rw [h.cell_push bound]
      rw [h.size_push bound] at below
      split
      · exact synced
      · exact before q (by omega)
  · rw [LinkedStore.push, dif_neg bound]
    exact .refl h

theorem Extends.makeChild (h : Heap) (p : ℕ) (id : Multihash) (header : BlockHeader) :
    h.Extends (h.makeChild p id header) := by
  refine .push h ?_
  rintro b ⟨⟩ db stored
  contradiction

theorem Extends.squash (h : Heap) (p : ℕ) : h.Extends (h.squash p) := by
  rw [Heap.squash]
  split
  · exact .refl h
  · exact .modify h _ (.absorb _ _)

end Heap

/-- No call on a node changes more than objects and tombstones. -/
theorem Session.Effect.extends {codec : KeyCodec} {s t : Session} {op : NodeOp}
    (effect : Session.Effect codec s op t) : s.heap.Extends t.heap := by
  cases effect with
  | put found writable => exact Heap.Extends.put _ _ _ _
  | remove found writable => exact Heap.Extends.erase _ _ _ _
  | create found => exact .makeChild _ _ _ _
  | commit found below owner writable => exact (Heap.Extends.squash _ _).trans (.makeChild _ _ _ _)
  | reset found below => exact .makeChild _ _ _ _

namespace Database

theorem transact_run_extends {codec : KeyCodec} (calls : List NodeOp) (s : Session) :
    s.heap.Extends (transact.run codec s calls).2 := by
  induction calls generalizing s with
  | nil => exact .refl _
  | cons call rest ih =>
    rw [transact.run]
    cases applied : s.apply codec call with
    | error e => exact .refl _
    | ok t => exact (Session.effect_of_apply applied).extends.trans (ih t)

/-- Calls on nodes only change the heap, by extending it. -/
theorem transact_eq {codec : KeyCodec} {db db' : Database} {nodeId : Multihash} {calls : List NodeOp}
    {result : Except StateDbError Unit} (ran : db.transact codec nodeId calls = (result, db')) :
    ∃ heap, db.heap.Extends heap ∧ db' = { db with heap } := by
  rw [transact] at ran
  split at ran
  · cases ran
    exact ⟨db.heap, .refl _, rfl⟩
  · cases ran
    exact ⟨_, transact_run_extends calls ⟨db.heap, _⟩, rfl⟩

end Database

end Teleno.StateDb
