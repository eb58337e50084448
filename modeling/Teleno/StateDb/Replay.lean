import Teleno.StateDb.MerkleRoot

/-! # Replaying delta entries

`apply_block_delta` rebuilds a block's delta from the entries of its receipt instead of executing
the block. The rebuilt delta answers every lookup as the executed one. It has the executed delta's
root exactly when that delta keeps no tombstone for a key it has written again: such a key is listed
twice, but replaying its entries records it once.
-/

namespace Teleno.StateDb

open Library StateDelta List

variable (codec : KeyCodec)

namespace Heap

/-- One round of the loop of `apply_block_delta`. -/
def applyDeltaEntry (p : ℕ) (h : Heap) (entry : StateDeltaEntry) : Except StateDbError Heap :=
  match entry.value with
  | some value => (h.putObject codec p entry.objectSpace entry.key value).map Prod.snd
  | none => (h.removeObject codec p entry.objectSpace entry.key true).map Prod.snd

def applyDeltaEntries (p : ℕ) (h : Heap) (entries : List StateDeltaEntry) : Except StateDbError Heap :=
  entries.foldlM (applyDeltaEntry codec p) h

end Heap

namespace StateDelta

/-- No key is both live and tombstoned. -/
def Canonical (d : StateDelta) : Prop := ∀ k, d.isRemoved k = true → d.get k = none

/-- What replaying the entry of one key does to a delta. -/
private def replayKey (source d : StateDelta) (k : Bytes) : StateDelta :=
  match source.get k with
  | some value => d.put k value
  | none => d.remove k

private theorem replayKey_eq (source d : StateDelta) (k : Bytes) :
    (replayKey source d k).parent = d.parent ∧ (replayKey source d k).finalized = d.finalized ∧
      (replayKey source d k).backend.isSome = d.backend.isSome := by
  rw [replayKey]
  cases source.get k <;> simp [put, remove]

/-- Replayed keys carry the source's values, with a tombstone where the source holds nothing. -/
private theorem foldl_replayKey (source : StateDelta) (keys : List Bytes) {d : StateDelta}
    (held : d.backend.isSome) (k : Bytes) :
    (keys.foldl (replayKey source) d).get k = (if k ∈ keys then source.get k else d.get k) ∧
      (keys.foldl (replayKey source) d).isRemoved k =
        (d.isRemoved k || decide (k ∈ keys ∧ source.get k = none)) := by
  induction keys generalizing d with
  | nil => simp
  | cons key rest ih =>
    obtain ⟨-, -, held'⟩ := replayKey_eq source d key
    obtain ⟨value, removed⟩ := ih (held'.trans held)
    rw [foldl_cons, value, removed, replayKey]
    rcases eq_or_ne key k with rfl | other
    · cases written : source.get key <;> simp [get_put held]
    · cases source.get key <;> simp [get_put held, other, other.symm]

private theorem foldl_replayKey_frame (source : StateDelta) (keys : List Bytes) (d : StateDelta) :
    (keys.foldl (replayKey source) d).parent = d.parent := by
  induction keys generalizing d with
  | nil => rfl
  | cons key rest ih => rw [foldl_cons, ih, (replayKey_eq source d key).1]

end StateDelta

namespace Heap

variable {h : Heap} {p : ℕ}

private theorem applyDeltaEntry_eq (source : StateDelta) (key : DatabaseKey) (writable : (h.cell p).finalized = false) :
    ∃ h', applyDeltaEntry codec p h ⟨key.space, key.key, source.get (codec.serialize key)⟩ = .ok h' ∧
      h'.size = h.size ∧ h'.cell p = replayKey source (h.cell p) (codec.serialize key) ∧
      ∀ q, q ≠ p → h'.cell q = h.cell q := by
  cases written : source.get (codec.serialize key) with
  | some value =>
    refine ⟨h.put p (codec.serialize key) value, ?_, rfl, ?_, ?_⟩
    · simp only [applyDeltaEntry, putObject, writable, Bool.false_eq_true, if_false]
      rfl
    · rw [replayKey, written, Heap.put, h.cell_modify_self]
    · exact fun q other => h.cell_modify_of_ne _ _ other
  | none =>
    refine ⟨h.modify p (·.remove (codec.serialize key)) (fun _ => .inl rfl), ?_, rfl, ?_, ?_⟩
    · simp only [applyDeltaEntry, removeObject, writable, Bool.false_eq_true, if_false, erase, Bool.or_true, if_true]
      rfl
    · rw [replayKey, written, h.cell_modify_self]
    · exact fun q other => h.cell_modify_of_ne _ _ other

/-- Replaying the entries of listed keys writes them, one after the other, into the delta. -/
private theorem applyDeltaEntries_eq (source : StateDelta) (keys : List Bytes)
    (named : ∀ k ∈ keys, ∃ key, codec.serialize key = k) (writable : (h.cell p).finalized = false) :
    ∃ h', applyDeltaEntries codec p h (keys.filterMap fun k =>
        (codec.parse k).map fun key => ⟨key.space, key.key, source.get k⟩) = .ok h' ∧
      h'.size = h.size ∧ h'.cell p = keys.foldl (replayKey source) (h.cell p) ∧
      ∀ q, q ≠ p → h'.cell q = h.cell q := by
  induction keys generalizing h with
  | nil => exact ⟨h, rfl, rfl, rfl, fun _ _ => rfl⟩
  | cons k rest ih =>
    obtain ⟨key, rfl⟩ := named k (mem_cons_self ..)
    obtain ⟨next, step, size, here, others⟩ := applyDeltaEntry_eq codec source key writable
    have writable' : (next.cell p).finalized = false := by
      rw [here, (replayKey_eq source (h.cell p) _).2.1, writable]
    obtain ⟨h', run, size', here', others'⟩ := ih (fun k mem => named k (mem_cons_of_mem _ mem)) writable'
    refine ⟨h', ?_, size'.trans size, ?_, fun q other => (others' q other).trans (others q other)⟩
    · rw [filterMap_cons, codec.parse_serialize]
      simp only [Option.map_some, applyDeltaEntries, foldlM_cons, step]
      exact run
    · rw [here', here, foldl_cons]

/-- Replaying all entries of a delta onto a fresh child: the values of the source, and its
tombstones for the keys it does not hold. -/
theorem applyDeltaEntries_getDeltaEntries {source : StateDelta} (keyed : source.Keyed codec) (bound : p < h.size)
    (id : Multihash) (header : BlockHeader) :
    ∃ h', applyDeltaEntries codec h.size (h.makeChild p id header) (source.getDeltaEntries codec) = .ok h' ∧
      (h'.cell h.size).parent = some p ∧ (∀ q < h.size, h'.cell q = h.cell q) ∧
      (∀ k, (h'.cell h.size).get k = source.get k) ∧
      ∀ k, (h'.cell h.size).isRemoved k = (source.isRemoved k && (source.get k).isNone) := by
  have linked : ∀ j, ((h.cell p).makeChild p id header).parent = some j → j < h.size := by
    rintro j ⟨⟩
    exact bound
  have fresh : (h.makeChild p id header).cell h.size = (h.cell p).makeChild p id header := by
    rw [Heap.makeChild, h.cell_push linked, if_pos rfl]
  have named : ∀ k ∈ source.objectKeys, ∃ key, codec.serialize key = k :=
    fun k mem => keyed.named k (source.mem_objectKeys.mp mem)
  obtain ⟨h', run, -, here, others⟩ := applyDeltaEntries_eq codec source source.objectKeys named
    (show ((h.makeChild p id header).cell h.size).finalized = false by rw [fresh]; rfl)
  have contents := foldl_replayKey source source.objectKeys
    (show ((h.cell p).makeChild p id header).backend.isSome from rfl)
  have nothing (k : Bytes) : ((h.cell p).makeChild p id header).get k = none ∧
      ((h.cell p).makeChild p id header).isRemoved k = false := by
    simp [StateDelta.makeChild, StateDelta.get, StateDelta.objects, StateDelta.isRemoved]
  refine ⟨h', run, ?_, ?_, ?_, ?_⟩
  · rw [here, foldl_replayKey_frame, fresh]
    rfl
  · intro q below
    rw [others q below.ne, Heap.makeChild, h.cell_push linked, if_neg below.ne]
  · intro k
    rw [here, fresh, (contents k).1, (nothing k).1]
    split_ifs with unlisted
    · rfl
    · rw [source.mem_objectKeys, not_or, Option.not_isSome_iff_eq_none] at unlisted
      exact unlisted.1.symm
  · intro k
    rw [here, fresh, (contents k).2, (nothing k).2, Bool.false_or, Bool.eq_iff_iff, decide_eq_true_iff,
      source.mem_objectKeys, Bool.and_eq_true, Option.isNone_iff_eq_none]
    constructor
    · rintro ⟨live | removed, absent⟩
      · rw [absent] at live
        contradiction
      · exact ⟨removed, absent⟩
    · rintro ⟨removed, absent⟩
      exact ⟨.inr removed, absent⟩

end Heap

namespace StateDelta.Canonical

variable {d : StateDelta}

theorem put (canonical : d.Canonical) (held : d.backend.isSome) {key : Bytes} (value : Bytes)
    (unmarked : d.isRemoved key = false) : (d.put key value).Canonical := by
  intro k removed
  rw [isRemoved_put] at removed
  rw [get_put held, if_neg]
  · exact canonical k removed
  · rintro rfl
    rw [unmarked] at removed
    contradiction

theorem remove (canonical : d.Canonical) (key : Bytes) : (d.remove key).Canonical := by
  intro k removed
  rw [isRemoved_remove, Bool.or_eq_true, decide_eq_true_iff] at removed
  rw [get_remove]
  split_ifs with other
  · rfl
  · exact canonical k (removed.resolve_left other)

/-- Squashing keeps the parent canonical whatever the child looks like. -/
theorem absorb (canonical : d.Canonical) (held : d.backend.isSome) (inner : d.parent ≠ none)
    (child : StateDelta) : (d.absorb child).Canonical := by
  intro k removed
  rw [isRemoved_absorb inner, Bool.and_eq_true, Bool.or_eq_true, Option.isNone_iff_eq_none] at removed
  rw [get_absorb held, removed.2, Option.none_or]
  split_ifs with unmarked
  · rfl
  · exact canonical k (removed.1.resolve_right unmarked)

end StateDelta.Canonical

/-- A put on the session's child itself, not through an anonymous node, meets no tombstone. -/
def NoRewrite (s : Session) : NodeOp → Prop
  | .putObject i space key _ => ∀ node, s.nodes[i]? = some node → node.parent = none →
    (s.heap.cell node.state).isRemoved (codec.serialize ⟨space, key⟩) = false
  | _ => True

namespace Session.Confined

variable {codec} {h : Heap} {p : ℕ} {s t : Session} {op : NodeOp}

theorem canonical_step (confined : s.Confined codec h p) (canonical : (s.heap.cell h.size).Canonical)
    (admitted : NoRewrite codec s op) (effect : Effect codec s op t) : (t.heap.cell h.size).Canonical := by
  have child := confined.keyed h.size le_rfl confined.grown
  cases effect with
  | put found writable =>
    rw [Heap.put, s.heap.cell_modify]
    split_ifs with here
    · obtain ⟨-, -, self⟩ := confined.nodes _ (mem_of_getElem? found)
      rw [← here]
      exact canonical.put child.held _ (here ▸ admitted _ found (self.mp here.symm))
    · exact canonical
  | remove found writable =>
    rw [Heap.erase]
    split
    · rw [s.heap.cell_modify]
      split_ifs with here
      · rw [← here]
        exact canonical.remove _
      · exact canonical
    · exact canonical
  | create found => exact (s.heap.cell_push_of_lt _ confined.grown).symm ▸ canonical
  | commit found below owner writable =>
    rw [Heap.makeChild, LinkedStore.cell_push_of_lt _ _ (by rw [Heap.size_squash]; exact confined.grown),
      Heap.squash]
    split
    · exact canonical
    · rw [s.heap.cell_modify]
      split_ifs with here
      · rw [← here]
        exact canonical.absorb child.held child.inner _
      · exact canonical
  | reset found below => exact (s.heap.cell_push_of_lt _ confined.grown).symm ▸ canonical

end Session.Confined

/-- Without direct rewrites of removed keys the child's delta stays canonical. -/
theorem canonical_of_reachable {h : Heap} {p : ℕ} {id : Multihash} {header : BlockHeader} {s : Session}
    (bound : p < h.size) (reached : (sessionMachine codec h p id header).Reachable (NoRewrite codec) s) :
    (s.heap.cell h.size).Canonical := by
  have both : s.Confined codec h p ∧ (s.heap.cell h.size).Canonical := by
    refine reached.invariant (motive := fun s => s.Confined codec h p ∧ (s.heap.cell h.size).Canonical) ?_ ?_
    · rintro s rfl
      refine ⟨.start bound id header, ?_⟩
      have linked : ∀ j, ((h.cell p).makeChild p id header).parent = some j → j < h.size := by
        rintro j ⟨⟩
        exact bound
      rw [Session.start, Heap.makeChild, h.cell_push linked, if_pos rfl]
      intro k removed
      simp [makeChild, isRemoved] at removed
    · rintro s op t ⟨confined, canonical⟩ admitted moves
      have effect := Session.effect_of_apply moves
      exact ⟨confined.step effect, confined.canonical_step canonical admitted effect⟩
  exact both.2

namespace StateDelta

/-- Deltas with the same objects and tombstones have the same root. -/
private theorem calculateMerkleRoot_congr (crypto : Crypto) {d e : StateDelta} (values : ∀ k, d.get k = e.get k)
    (removed : ∀ k, d.isRemoved k = e.isRemoved k) : d.calculateMerkleRoot crypto = e.calculateMerkleRoot crypto := by
  have objects : d.objects = e.objects := Std.ExtTreeMap.ext_getElem? values
  have tombstones : d.removedObjects = e.removedObjects := Std.ExtTreeSet.ext_contains removed
  simp [calculateMerkleRoot, merkleLeafs, objectKeys, get, objects, tombstones]

/-- A delta and its replay have the same root exactly when the delta is canonical. -/
private theorem canonical_of_root_eq {crypto : Crypto} (free : crypto.CollisionFree) {d replayed : StateDelta}
    (removed : ∀ k, replayed.isRemoved k = (d.isRemoved k && (d.get k).isNone)) (values : ∀ k, replayed.get k = d.get k)
    (same : replayed.calculateMerkleRoot crypto = d.calculateMerkleRoot crypto) : d.Canonical := by
  intro k marked
  have counts := congrArg (count k) (objectKeys_eq_of_calculateMerkleRoot_eq free same).1
  rw [count_objectKeys, count_objectKeys, values, removed, marked] at counts
  cases written : d.get k with
  | none => rfl
  | some value => simp [written] at counts

end StateDelta

/-- Replaying the entries of a session's child onto a fresh child of the same parent succeeds and
gives the same answers. The pending root is the same if no key is both live and tombstoned, only
then unless hashes collide, and in particular after every run without direct rewrites of removed
keys. -/
theorem replay_reproduces_execution (crypto : Crypto) (h : Heap) (p : ℕ) (bound : p < h.size)
    (id id' : Multihash) (header header' : BlockHeader) (s : Session)
    (reached : (sessionMachine codec h p id header).Reachable (fun _ _ => True) s) :
    ∃ h', Heap.applyDeltaEntries codec s.heap.size (s.heap.makeChild p id' header')
        ((s.heap.cell h.size).getDeltaEntries codec) = .ok h' ∧
      (∀ space key, h'.getObject codec s.heap.size space key = s.heap.getObject codec h.size space key) ∧
      ((s.heap.cell h.size).Canonical →
        h'.pendingMerkleRoot s.heap.size crypto = s.heap.pendingMerkleRoot h.size crypto) ∧
      (crypto.CollisionFree →
        h'.pendingMerkleRoot s.heap.size crypto = s.heap.pendingMerkleRoot h.size crypto →
        (s.heap.cell h.size).Canonical) ∧
      ((sessionMachine codec h p id header).Reachable (NoRewrite codec) s →
        h'.pendingMerkleRoot s.heap.size crypto = s.heap.pendingMerkleRoot h.size crypto) := by
  have confined := confined_of_reachable bound reached
  have keyed := confined.keyed h.size le_rfl confined.grown
  obtain ⟨h', run, up, frame, values, removed⟩ := Heap.applyDeltaEntries_getDeltaEntries codec keyed
    (bound.trans confined.grown) id' header'
  have roots : (s.heap.cell h.size).Canonical →
      h'.pendingMerkleRoot s.heap.size crypto = s.heap.pendingMerkleRoot h.size crypto := by
    intro canonical
    refine calculateMerkleRoot_congr crypto values (fun k => (removed k).trans ?_)
    cases marked : (s.heap.cell h.size).isRemoved k with
    | false => rfl
    | true => rw [canonical k marked]; rfl
  refine ⟨h', run, ?_, roots, ?_, fun reached => roots (canonical_of_reachable codec bound reached)⟩
  · intro space key
    have parent : h'.find p (codec.serialize ⟨space, key⟩) = s.heap.find p (codec.serialize ⟨space, key⟩) :=
      s.heap.find_congr h' (fun q mem =>
        frame q (((s.heap.le_of_mem_path mem).trans_lt bound).trans confined.grown)) _
    rw [Heap.getObject, Heap.getObject, h'.find_of_some up, s.heap.find_of_some confined.child, parent, values, removed]
    cases (s.heap.cell h.size).get (codec.serialize ⟨space, key⟩) <;> simp
  · intro free same
    exact canonical_of_root_eq free removed values same

/-- Removing a stored object and writing it again through an anonymous node replays exactly. -/
theorem replay_reproduces_execution_of_squash :
    ∃ s, (sessionMachine .transparent storedObject 0 [2] {}).Reachable (NoRewrite .transparent) s ∧
      s.heap.getObject .transparent 1 {} [1] = some [9] ∧
      ∃ h', Heap.applyDeltaEntries .transparent s.heap.size (s.heap.makeChild 0 [3] {})
          ((s.heap.cell 1).getDeltaEntries .transparent) = .ok h' ∧
        h'.pendingMerkleRoot s.heap.size .transparent = s.heap.pendingMerkleRoot 1 .transparent := by
  have removed : (sessionMachine .transparent storedObject 0 [2] {}).Reachable (NoRewrite .transparent) _ :=
    .next (a := .createAnonymousNode 0)
      (.next (a := .removeObject 0 {} [1] false) (.start rfl) trivial rfl) trivial rfl
  have committed : (sessionMachine .transparent storedObject 0 [2] {}).Reachable (NoRewrite .transparent) _ :=
    .next (a := .commit 1) (.next (a := .putObject 1 {} [1] [9]) removed
      (by rintro node ⟨⟩ ⟨⟩) rfl) trivial rfl
  obtain ⟨h', run, -, -, -, same⟩ := replay_reproduces_execution .transparent .transparent storedObject 0
    (by decide) [2] [3] {} {} _ (committed.mono fun _ _ _ => trivial)
  exact ⟨_, committed, by decide, h', run, same committed⟩

/-- Removing a stored object and writing it again on the same node does not replay to its root. -/
theorem replay_root_differs :
    ∃ s, (sessionMachine .transparent storedObject 0 [2] {}).Reachable (fun _ _ => True) s ∧
      ∃ h', Heap.applyDeltaEntries .transparent s.heap.size (s.heap.makeChild 0 [3] {})
          ((s.heap.cell 1).getDeltaEntries .transparent) = .ok h' ∧
        h'.pendingMerkleRoot s.heap.size .transparent ≠ s.heap.pendingMerkleRoot 1 .transparent := by
  have rewritten : (sessionMachine .transparent storedObject 0 [2] {}).Reachable (fun _ _ => True) _ :=
    .next (a := .putObject 0 {} [1] [9])
      (.next (a := .removeObject 0 {} [1] false) (.start rfl) trivial rfl) trivial rfl
  refine ⟨_, rewritten, _, rfl, by decide⟩

end Teleno.StateDb
