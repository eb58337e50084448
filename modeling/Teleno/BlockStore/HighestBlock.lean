import Teleno.BlockStore.Ancestry

/-! # The highest block

The record of a block and the topology of the highest block are two writes. A call that fails or stops between
them has stored a block above the highest one, and a retry finds the record and returns. In every run without
such a call the topology names a stored block, and no stored block is higher.
-/

namespace Teleno.BlockStore

open Library Chain Exec

variable {codec : RecordCodec} {store store' : BlockStore} {call : AddCall}

/-- If there are any blocks, the highest one is stored and has the greatest height. -/
def HighestExact (codec : RecordCodec) (store : BlockStore) : Prop :=
  ∀ id record, store.record? codec id = some record →
    record.blockHeight ≤ (store.getHighestBlock codec).height ∧
      ∃ top, store.record? codec (store.getHighestBlock codec).id = some top ∧
        top.blockHeight = (store.getHighestBlock codec).height

/-- The heights of blocks start at 1. -/
def AddCall.Positive (call : AddCall) : Prop :=
  ∀ block, call.req.blockToAdd = some block → 1 ≤ block.header.height.toUInt64.toNat

/-- The record of a new highest block is written, but not its topology. -/
structure AddCall.Interrupted (codec : RecordCodec) (store : BlockStore) (call : AddCall) (block : Block)
    (bytes : Bytes) (current : BlockTopology) : Prop where
  insertion : store.Insertion codec call.req block bytes
  put : call.faults.block = false
  highest : store.getHighestBlockTopology codec = some current
  higher : current.height < block.header.height.toUInt64
  fails : call.faults.highest = true ∨ codec.serializeTopology (newTopology block) = none

/-- No write fails between the record of a new highest block and its topology. -/
def AddCall.Intact (codec : RecordCodec) (store : BlockStore) (call : AddCall) : Prop :=
  ∀ block bytes current, ¬ call.Interrupted codec store block bytes current

theorem AddCall.Interrupted.throws {block : Block} {bytes : Bytes} {current : BlockTopology}
    (interrupted : call.Interrupted codec store block bytes current) :
    ∃ e, addBlock codec call.faults call.req store = .error e (store.withRecord block.id bytes) := by
  rw [addBlock_of_insertion interrupted.insertion interrupted.put]
  exact raiseHighest_of_fails interrupted.highest interrupted.higher interrupted.fails

theorem AddCall.intact_of_ok (ok : addBlock codec call.faults call.req store = .ok () store') :
    call.Intact codec store := by
  intro block bytes current interrupted
  obtain ⟨e, err⟩ := interrupted.throws
  rw [ok] at err
  contradiction

/-- The topology is the genesis or names a stored block, and no block is higher. -/
structure Tracked (codec : RecordCodec) (store : BlockStore) (top : BlockTopology) : Prop where
  highest : store.getHighestBlockTopology codec = some top
  bound : ∀ id record, store.record? codec id = some record →
    1 ≤ record.blockHeight.toNat ∧ record.blockHeight ≤ top.height
  named : top.height = 0 ∨ ∃ record, store.record? codec top.id = some record ∧ record.blockHeight = top.height

namespace Tracked

variable {top : BlockTopology}

theorem highestExact (tracked : store.Tracked codec top) : store.HighestExact codec := by
  intro id record stored
  obtain ⟨positive, le⟩ := tracked.bound id record stored
  rw [getHighestBlock, tracked.highest, Option.getD_some]
  refine ⟨le, tracked.named.resolve_left fun zero => ?_⟩
  rw [zero, UInt64.le_iff_toNat_le] at le
  have none := positive.trans le
  contradiction

variable {req : AddBlockRequest} {block : Block} {bytes : Bytes}

/-- A new record that is not above the highest block. -/
theorem written (tracked : store.Tracked codec top) (insertion : store.Insertion codec req block bytes)
    (positive : 1 ≤ block.header.height.toUInt64.toNat) (le : block.header.height.toUInt64 ≤ top.height) :
    (store.withRecord block.id bytes).Tracked codec top := by
  obtain ⟨pointers, -, records⟩ := insertion.records rfl
  refine ⟨tracked.highest, fun id record stored => ?_, ?_⟩
  · rw [records] at stored
    split at stored
    · cases stored
      exact ⟨positive, le⟩
    · exact tracked.bound id record stored
  · rcases tracked.named with zero | ⟨record, stored, same⟩
    · exact .inl zero
    · exact .inr ⟨record, insertion.retains rfl _ _ stored, same⟩

/-- A new highest block. -/
theorem raised (tracked : store.Tracked codec top) (insertion : store.Insertion codec req block bytes)
    (positive : 1 ≤ block.header.height.toUInt64.toNat) (higher : top.height < block.header.height.toUInt64)
    {value : Bytes} (serialized : codec.serializeTopology (newTopology block) = some value) :
    Tracked codec { store.withRecord block.id bytes with highest := some value } (newTopology block) := by
  obtain ⟨pointers, -, records⟩ := insertion.records rfl
  refine ⟨codec.parse_serializeTopology _ _ serialized, fun id record stored => ?_,
    .inr ⟨newRecord block req.receiptToAdd pointers, ?_, rfl⟩⟩
  · replace stored := (records id).symm.trans stored
    split at stored
    · cases stored
      exact ⟨positive, UInt64.le_refl _⟩
    · obtain ⟨above, le⟩ := tracked.bound id record stored
      exact ⟨above, UInt64.le_of_lt (UInt64.lt_of_le_of_lt le higher)⟩
  · exact (records block.id).trans (if_pos rfl)

/-- What one call keeps. -/
theorem addBlock (tracked : store.Tracked codec top) (positive : call.Positive) (intact : call.Intact codec store) :
    ∃ top', (final (addBlock codec call.faults call.req store)).Tracked codec top' := by
  have outcome := store.outcome_addBlock codec call.faults call.req
  generalize BlockStore.addBlock codec call.faults call.req store = result at outcome
  cases outcome with
  | refused | present | omitted => exact ⟨top, tracked⟩
  | written insertion below =>
    exact ⟨top, tracked.written insertion (positive _ insertion.asked) (UInt64.not_lt.mp (below top tracked.highest))⟩
  | interrupted insertion put highest higher fails =>
    exact absurd ⟨insertion, put, highest, higher, fails⟩ (intact _ _ _)
  | raised insertion highest higher serialized =>
    obtain rfl := Option.some.inj (highest.symm.trans tracked.highest)
    exact ⟨_, tracked.raised insertion (positive _ insertion.asked) higher serialized⟩

end Tracked

/-- A call, or the start of the node on an existing store. -/
inductive StoreAction where
  | add (call : AddCall)
  | reopen (faults : Faults)

/-- The store after an action. -/
def StoreAction.run (codec : RecordCodec) (store : BlockStore) : StoreAction → BlockStore
  | .add call => final (addBlock codec call.faults call.req store)
  | .reopen faults => final (initializeMetadata codec faults store)

def StoreAction.Intact (codec : RecordCodec) (store : BlockStore) : StoreAction → Prop
  | .add call => call.Positive ∧ call.Intact codec store
  | .reopen _ => True

/-- All runs on a new store whose metadata have been initialized. -/
def archive (codec : RecordCodec) : Machine BlockStore StoreAction where
  init store := ∃ faults, initializeMetadata codec faults ⟨fun _ => none, none⟩ = .ok () store
  step store action store' := store' = action.run codec store

theorem tracked_of_initializeMetadata {faults : Faults}
    (ok : initializeMetadata codec faults ⟨fun _ => none, none⟩ = .ok () store) : ∃ top, store.Tracked codec top := by
  rw [initializeMetadata, Exec.get_bind] at ok
  have missing : getHighestBlockTopology codec ⟨fun _ => none, none⟩ = none := rfl
  rw [missing] at ok
  dsimp only at ok
  rw [updateHighestBlock] at ok
  cases serialized : codec.serializeTopology { id := List.replicate 34 0 } with
  | none =>
    rw [serialized] at ok
    contradiction
  | some value =>
    rw [serialized] at ok
    obtain ⟨_, middle, required, modified⟩ := Exec.bind_eq_ok ok
    obtain ⟨-, rfl⟩ := Exec.require_eq_ok_iff.mp required
    cases modified
    refine ⟨_, codec.parse_serializeTopology _ _ serialized, fun id record stored => ?_, .inl rfl⟩
    contradiction

theorem Tracked.reopen {top : BlockTopology} (tracked : store.Tracked codec top) (faults : Faults) :
    final (initializeMetadata codec faults store) = store := by
  rw [initializeMetadata, Exec.get_bind, tracked.highest]
  rfl

theorem tracked_of_reachable
    (reached : (archive codec).Reachable (fun store action => action.Intact codec store) store) :
    ∃ top, store.Tracked codec top := by
  refine reached.invariant (motive := fun store => ∃ top, store.Tracked codec top) ?_ ?_
  · rintro store ⟨faults, ok⟩
    exact tracked_of_initializeMetadata ok
  · rintro store action _ ⟨top, tracked⟩ intact rfl
    cases action with
    | add call => exact tracked.addBlock intact.1 intact.2
    | reopen faults =>
      rw [StoreAction.run, tracked.reopen]
      exact ⟨top, tracked⟩

/-- The retry of an interrupted call changes nothing. -/
theorem AddCall.Interrupted.retry {block : Block} {bytes : Bytes} {current : BlockTopology}
    (interrupted : call.Interrupted codec store block bytes current) {faults : Faults}
    (ok : addBlock codec faults call.req (store.withRecord block.id bytes) = .ok () store') :
    store' = store.withRecord block.id bytes := by
  obtain ⟨pointers, -, records⟩ := interrupted.insertion.records rfl
  have present := isEmpty_getRecordBytes_of_record ((records block.id).trans (if_pos rfl))
  have outcome := (store.withRecord block.id bytes).outcome_addBlock codec faults call.req
  rw [ok] at outcome
  cases outcome with
  | present | omitted => rfl
  | written insertion | raised insertion =>
    obtain rfl := Option.some.inj (interrupted.insertion.asked.symm.trans insertion.asked)
    have missing := insertion.missing
    rw [present] at missing
    contradiction

/-- In every run without an interrupted call the highest block is exact. After any other call, once it has been
retried with success, the highest block is exact if and only if the call was not interrupted. -/
theorem highest_exact_of_intact (codec : RecordCodec) :
    ∀ store, (archive codec).Reachable (fun store action => action.Intact codec store) store →
      store.HighestExact codec ∧
      ∀ (call : AddCall) (faults : Faults) (store' : BlockStore), call.Positive →
        addBlock codec faults call.req (final (addBlock codec call.faults call.req store)) = .ok () store' →
          (store'.HighestExact codec ↔ call.Intact codec store) := by
  intro store reached
  obtain ⟨top, tracked⟩ := tracked_of_reachable reached
  refine ⟨tracked.highestExact, fun call faults store' positive retried => ?_⟩
  constructor
  · intro highest block bytes current interrupted
    obtain ⟨e, err⟩ := interrupted.throws
    rw [err] at retried
    obtain rfl := interrupted.retry retried
    obtain ⟨pointers, -, records⟩ := interrupted.insertion.records rfl
    obtain ⟨le, -⟩ := highest block.id _ ((records block.id).trans (if_pos rfl))
    have same : (store.withRecord block.id bytes).getHighestBlock codec = current := by
      have kept : (store.withRecord block.id bytes).getHighestBlockTopology codec = some current := interrupted.highest
      rw [getHighestBlock, kept, Option.getD_some]
    rw [same] at le
    exact UInt64.not_lt.mpr le interrupted.higher
  · intro intact
    obtain ⟨top', tracked'⟩ := tracked.addBlock positive intact
    have again : AddCall.Positive ⟨call.req, faults⟩ := positive
    obtain ⟨top'', tracked''⟩ := tracked'.addBlock again (AddCall.intact_of_ok retried)
    rw [retried] at tracked''
    exact tracked''.highestExact

section Sample

/-- A new store. -/
def newStore : BlockStore := final (initializeMetadata sampleCodec {} ⟨fun _ => none, none⟩)

/-- The request that adds a first block. -/
def firstRequest : AddBlockRequest := { blockToAdd := some (sampleBlock 1 1 0) }

/-- The store after the topology of the first block could not be written. -/
def staleStore : BlockStore := final (addBlock sampleCodec { highest := true } firstRequest newStore)

theorem init_newStore : (archive sampleCodec).init newStore := ⟨{}, rfl⟩

/-- The retry returns, the block of height 1 is stored and the highest block is still the genesis. -/
theorem retry_keeps_stale_topology :
    (archive sampleCodec).init newStore ∧
    addBlock sampleCodec {} firstRequest staleStore = .ok () staleStore ∧
    (staleStore.record? sampleCodec [1]).map (·.blockHeight) = some 1 ∧
    staleStore.getHighestBlock sampleCodec = { id := List.replicate 34 0 } ∧
    ¬ staleStore.HighestExact sampleCodec := by
  refine ⟨init_newStore, rfl, rfl, rfl, fun highest => ?_⟩
  obtain ⟨le, -⟩ := highest [1] _ rfl
  exact absurd le (by decide)

/-- A second block on the first one. -/
theorem highest_exact_sample :
    let first := final (addBlock sampleCodec {} firstRequest newStore)
    (final (addBlock sampleCodec {} { blockToAdd := some (sampleBlock 2 2 1) } first)).HighestExact sampleCodec := by
  refine (highest_exact_of_intact sampleCodec _
    (.next (a := .add ⟨{ blockToAdd := some (sampleBlock 2 2 1) }, {}⟩)
      (.next (a := .add ⟨firstRequest, {}⟩) (.start init_newStore) ?_ rfl) ?_ rfl)).1 <;>
  · refine ⟨?_, AddCall.intact_of_ok rfl⟩
    rintro _ ⟨⟩
    decide

end Sample

end Teleno.BlockStore
