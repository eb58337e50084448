import Teleno.StateDb.StateNode

/-! # What the state root says about a delta

The root is computed from the sorted list of live keys and tombstones, each followed by the hash
of its value; a removed key contributes the hash of the empty string. Without hash collisions the
root determines that list and every value in it, up to the difference between a removed object and
an empty one.
-/

namespace Teleno.StateDb

open Library List Std.ExtTreeMap Heap

namespace StateDelta

variable (d : StateDelta) {k : Bytes}

theorem objectKeys_perm : d.objectKeys.Perm (d.objects.keys ++ d.removedObjects.toList) :=
  perm_insertionSort _ _

theorem mem_objectKeys : k ∈ d.objectKeys ↔ (d.get k).isSome ∨ d.isRemoved k = true := by
  rw [d.objectKeys_perm.mem_iff, mem_append, Std.ExtTreeMap.mem_keys, Std.ExtTreeSet.mem_toList,
    mem_iff_isSome_getElem?, Std.ExtTreeSet.mem_iff_contains]
  rfl

/-- A key that is live and tombstoned is listed twice. -/
theorem count_objectKeys : d.objectKeys.count k =
    (if (d.get k).isSome then 1 else 0) + (if d.isRemoved k then 1 else 0) := by
  have live : d.objects.keys.count k = if (d.get k).isSome then 1 else 0 := by
    rw [nodup_keys.count]
    simp only [Std.ExtTreeMap.mem_keys, mem_iff_isSome_getElem?, get]
    congr
  have distinct : d.removedObjects.toList.Nodup := by
    refine Std.ExtTreeSet.distinct_toList.imp ?_
    rintro key _ differ rfl
    exact differ Std.ReflCmp.compare_self
  have removed : d.removedObjects.toList.count k = if d.isRemoved k then 1 else 0 := by
    rw [distinct.count]
    simp only [Std.ExtTreeSet.mem_toList, Std.ExtTreeSet.mem_iff_contains, isRemoved]
    congr
  rw [d.objectKeys_perm.count_eq, count_append, live, removed]

private theorem flatMap_hash_injective {hash : Bytes → Multihash} (injective : Function.Injective hash)
    {value value' : Bytes → Bytes} {keys keys' : List Bytes}
    (same : keys.flatMap (fun key => [hash key, hash (value key)]) =
      keys'.flatMap (fun key => [hash key, hash (value' key)])) :
    keys = keys' ∧ ∀ key ∈ keys, value key = value' key := by
  induction keys generalizing keys' with
  | nil =>
    cases keys' with
    | nil => exact ⟨rfl, fun _ mem => absurd mem not_mem_nil⟩
    | cons key' rest' => cases same
  | cons key rest ih =>
    cases keys' with
    | nil => cases same
    | cons key' rest' =>
      simp only [flatMap_cons, cons_append, nil_append, cons.injEq] at same
      obtain ⟨keyHash, valueHash, tails⟩ := same
      obtain rfl := injective keyHash
      obtain ⟨rfl, values⟩ := ih tails
      refine ⟨rfl, fun other mem => ?_⟩
      rcases mem_cons.mp mem with rfl | later
      · exact injective valueHash
      · exact values other later

/-- Equal roots come from equal key lists and equal values, a removed object counting as empty. -/
theorem objectKeys_eq_of_calculateMerkleRoot_eq {crypto : Crypto} (free : crypto.CollisionFree) {d e : StateDelta}
    (same : d.calculateMerkleRoot crypto = e.calculateMerkleRoot crypto) :
    d.objectKeys = e.objectKeys ∧ ∀ k ∈ d.objectKeys, (d.get k).getD [] = (e.get k).getD [] :=
  flatMap_hash_injective free.hash_injective (free.merkleRoot_injective same)

end StateDelta

namespace Session.Confined

variable {codec : KeyCodec} {h : Heap} {p : ℕ} {s : Session}

/-- The session's child answers from its own delta or as its parent did when the session began. -/
theorem find_child (confined : s.Confined codec h p) (bound : p < h.size) (k : Bytes) :
    s.heap.find h.size k = ((s.heap.cell h.size).get k).or
      (if (s.heap.cell h.size).isRemoved k then none else h.find p k) := by
  rw [s.heap.find_of_some confined.child, h.find_congr s.heap]
  intro q mem
  exact confined.frame q ((h.le_of_mem_path mem).trans_lt bound)

end Session.Confined

/-- Two children of one parent with the same pending root answer every lookup alike, except that
an object absent on one side may be an empty value on the other. -/
theorem pendingMerkleRoot_binds_answers (codec : KeyCodec) (crypto : Crypto) (free : crypto.CollisionFree)
    (h : Heap) (p : ℕ) (bound : p < h.size) (id id' : Multihash) (header header' : BlockHeader)
    (s t : Session) (reached : (sessionMachine codec h p id header).Reachable (fun _ _ => True) s)
    (reached' : (sessionMachine codec h p id' header').Reachable (fun _ _ => True) t)
    (same : s.heap.pendingMerkleRoot h.size crypto = t.heap.pendingMerkleRoot h.size crypto) :
    (∀ space key, (s.heap.getObject codec h.size space key).getD [] =
      (t.heap.getObject codec h.size space key).getD []) ∧
    ((∀ k, (s.heap.cell h.size).get k ≠ some [] ∧ (t.heap.cell h.size).get k ≠ some []) →
      ∀ space key, s.heap.getObject codec h.size space key = t.heap.getObject codec h.size space key) := by
  have confined := confined_of_reachable bound reached
  have confined' := confined_of_reachable bound reached'
  obtain ⟨keys, values⟩ := StateDelta.objectKeys_eq_of_calculateMerkleRoot_eq free same
  have own {u : Session} (confined : u.Confined codec h p) {k : Bytes}
      (listed : k ∈ (u.heap.cell h.size).objectKeys) : u.heap.find h.size k = (u.heap.cell h.size).get k := by
    rw [confined.find_child bound]
    rcases (StateDelta.mem_objectKeys _).mp listed with live | removed
    · rw [Option.or_of_isSome live]
    · rw [if_pos removed, Option.or_none]
  have inherited {u : Session} (confined : u.Confined codec h p) {k : Bytes}
      (unlisted : k ∉ (u.heap.cell h.size).objectKeys) : u.heap.find h.size k = h.find p k := by
    rw [StateDelta.mem_objectKeys, not_or, Option.not_isSome_iff_eq_none] at unlisted
    rw [confined.find_child bound, unlisted.1, Option.none_or, if_neg unlisted.2]
  refine ⟨?_, ?_⟩
  · intro space key
    by_cases listed : codec.serialize ⟨space, key⟩ ∈ (s.heap.cell h.size).objectKeys
    · rw [getObject, getObject, own confined listed, own confined' (keys ▸ listed)]
      exact values _ listed
    · rw [getObject, getObject, inherited confined listed, inherited confined' (keys ▸ listed)]
  · intro nonempty space key
    by_cases listed : codec.serialize ⟨space, key⟩ ∈ (s.heap.cell h.size).objectKeys
    · have value := values _ listed
      rw [getObject, getObject, own confined listed, own confined' (keys ▸ listed)]
      obtain ⟨left, right⟩ := nonempty (codec.serialize ⟨space, key⟩)
      cases mine : (s.heap.cell h.size).get (codec.serialize ⟨space, key⟩) <;>
        cases other : (t.heap.cell h.size).get (codec.serialize ⟨space, key⟩) <;>
        simp_all
    · rw [getObject, getObject, inherited confined listed, inherited confined' (keys ▸ listed)]

/-- A root node that holds one object. -/
def storedObject : Heap :=
  let key := KeyCodec.transparent.serialize ⟨{}, [1]⟩
  Heap.empty.push { backend := some { objects := (∅ : ObjectMap).insert key [7] } }

theorem pendingMerkleRoot_binds_answers_of_storedObject :
    ∃ s t, (sessionMachine .transparent storedObject 0 [2] {}).Reachable (fun _ _ => True) s ∧
      (sessionMachine .transparent storedObject 0 [3] {}).Reachable (fun _ _ => True) t ∧
      s.heap.pendingMerkleRoot 1 .transparent = t.heap.pendingMerkleRoot 1 .transparent ∧
      ∀ space key, (s.heap.getObject .transparent 1 space key).getD [] =
        (t.heap.getObject .transparent 1 space key).getD [] := by
  have reached : (sessionMachine .transparent storedObject 0 [2] {}).Reachable (fun _ _ => True) _ :=
    .next (a := .putObject 0 {} [1] [5]) (.start rfl) trivial rfl
  have reached' : (sessionMachine .transparent storedObject 0 [3] {}).Reachable (fun _ _ => True) _ :=
    .next (a := .putObject 0 {} [1] [5]) (.next (a := .putObject 0 {} [1] [6]) (.start rfl) trivial rfl)
      trivial rfl
  refine ⟨_, _, reached, reached', by decide, ?_⟩
  exact (pendingMerkleRoot_binds_answers .transparent .transparent Crypto.transparent_collisionFree
    storedObject 0 (by decide) [2] [3] {} {} _ _ reached reached' (by decide)).1

/-- Writing an empty value and removing the object give the same root but different answers. -/
theorem pendingMerkleRoot_not_binding : Crypto.transparent.CollisionFree ∧
    ∃ s t, (sessionMachine .transparent storedObject 0 [2] {}).Reachable (fun _ _ => True) s ∧
      (sessionMachine .transparent storedObject 0 [2] {}).Reachable (fun _ _ => True) t ∧
      s.heap.pendingMerkleRoot 1 .transparent = t.heap.pendingMerkleRoot 1 .transparent ∧
      s.heap.getObject .transparent 1 {} [1] = some [] ∧ t.heap.getObject .transparent 1 {} [1] = none := by
  have written : (sessionMachine .transparent storedObject 0 [2] {}).Reachable (fun _ _ => True) _ :=
    .next (a := .putObject 0 {} [1] []) (.start rfl) trivial rfl
  have removed : (sessionMachine .transparent storedObject 0 [2] {}).Reachable (fun _ _ => True) _ :=
    .next (a := .removeObject 0 {} [1] false) (.start rfl) trivial rfl
  exact ⟨Crypto.transparent_collisionFree, _, _, written, removed, by decide, by decide, by decide⟩

end Teleno.StateDb
