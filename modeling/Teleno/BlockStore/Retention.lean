import Teleno.BlockStore.Ancestry

/-! # What an answer without an error says

The chain finalizes a block once `add_block` has returned. The block is then served, unless one of its
ancestors could not be found: such a block is left out without an error, and one of an odd height is written
without looking for its parent.
-/

namespace Teleno.BlockStore

open Library Chain Exec List

variable {codec : RecordCodec} {store store' : BlockStore} {block : Block}

/-- The block is found by its id, and its parent from it. The parent of a first block is the genesis, which is
not stored. -/
structure Serves (codec : RecordCodec) (store : BlockStore) (block : Block) : Prop where
  found : ∃ item ∈ store.getBlocksById codec { blockIds := [block.id], returnBlock := true },
    item.blockId = block.id ∧ item.block = some block
  parent : store.getAncestorIdAtHeight codec block.id (block.header.height.toUInt64 - 1).toNat =
    .ok block.header.previous
  reached : 1 < block.header.height.toUInt64.toNat → (store.record? codec block.header.previous).isSome

/-- The ancestors that a new block points to can be found, and its parent is stored. -/
structure Anchored (codec : RecordCodec) (store : BlockStore) (block : Block) : Prop where
  positive : 1 ≤ block.header.height.toUInt64.toNat
  parent : 1 < block.header.height.toUInt64.toNat →
    block.header.previous = block.id ∨ (store.record? codec block.header.previous).isSome
  ancestors : ∀ h ∈ getPreviousHeights block.header.height.toUInt64.toNat,
    h = block.header.height.toUInt64.toNat - 1 ∨ ∃ a, store.getAncestorIdAtHeight codec block.header.previous h = .ok a

theorem mem_getBlocksById_iff {id : Bytes} {returnBlock returnReceipt : Bool} {item : BlockItem} :
    item ∈ store.getBlocksById codec ⟨[id], returnBlock, returnReceipt⟩ ↔
      ∃ record, store.record? codec id = some record ∧ record.item returnBlock returnReceipt = item := by
  have taken : [id].take maxBlockRequest = [id] := rfl
  rw [getBlocksById, taken, mem_filterMap]
  constructor
  · rintro ⟨_, listed, mapped⟩
    obtain rfl := mem_singleton.mp listed
    exact Option.map_eq_some_iff.mp mapped
  · intro stored
    exact ⟨id, mem_singleton_self id, Option.map_eq_some_iff.mpr stored⟩

/-- A block without a record is not served. -/
theorem Serves.stored (serves : store.Serves codec block) : (store.getRecordBytes block.id).isEmpty = false := by
  obtain ⟨item, mem, -⟩ := serves.found
  obtain ⟨record, stored, -⟩ := mem_getBlocksById_iff.mp mem
  exact isEmpty_getRecordBytes_of_record stored

/-- Mapping succeeds if it does so at every element. -/
theorem exists_mapM_eq_ok_iff {α β : Type} {f : α → Except StoreException β} {list : List α} :
    (∃ mapped, list.mapM f = .ok mapped) ↔ ∀ a ∈ list, ∃ b, f a = .ok b := by
  constructor
  · rintro ⟨mapped, ok⟩ a mem
    obtain ⟨i, at_⟩ := getElem?_of_mem mem
    obtain ⟨b, found, -⟩ := getElem?_of_mapM ok at_
    exact ⟨b, found⟩
  · intro each
    induction list with
    | nil => exact ⟨[], rfl⟩
    | cons head rest ih =>
      obtain ⟨b, first⟩ := each head mem_cons_self
      obtain ⟨bs, later⟩ := ih fun a mem => each a (mem_cons_of_mem head mem)
      refine ⟨b :: bs, ?_⟩
      rw [mapM_cons, first, later]
      rfl

section Pointers

variable {previous : Bytes} {height : ℕ} {pointers : List Bytes}

/-- The pointers of a new block can be built if its ancestors are found. -/
theorem exists_skipPointers_eq_ok_iff : (∃ pointers, store.skipPointers codec previous height = .ok pointers) ↔
    ∀ h ∈ getPreviousHeights height, h = height - 1 ∨ ∃ a, store.getAncestorIdAtHeight codec previous h = .ok a := by
  rw [skipPointers]
  split_ifs with high one
  · rw [exists_mapM_eq_ok_iff]
    refine forall₂_congr fun h _ => ?_
    split_ifs with direct
    · exact iff_of_true ⟨_, rfl⟩ (.inl direct)
    · exact (or_iff_right direct).symm
  · refine iff_of_true ⟨_, rfl⟩ fun h mem => ?_
    subst one
    exact .inl (mem_singleton.mp mem)
  · obtain rfl : height = 0 := by omega
    exact iff_of_true ⟨_, rfl⟩ fun h mem => absurd mem not_mem_nil

/-- The first pointer of a new block is its parent. -/
theorem head_skipPointers (looked : store.skipPointers codec previous height = .ok pointers)
    (positive : 1 ≤ height) : pointers[0]? = some previous := by
  rw [skipPointers] at looked
  split_ifs at looked with high one
  · have listed : (getPreviousHeights height)[0]? = some (height - 2 ^ 0) :=
      getElem?_getPreviousHeights positive (Nat.zero_le _)
    obtain ⟨pointer, found, held⟩ := getElem?_of_mapM looked listed
    rw [if_pos (by rw [pow_zero])] at found
    rw [held, Except.ok.inj found]
  · cases looked
    rfl
  · omega

end Pointers

/-- From a block that has been written its parent is found, if it has a height for it. -/
theorem getAncestorIdAtHeight_newRecord {receipt : Option BlockReceipt} {pointers : List Bytes}
    (stored : store.record? codec block.id = some (newRecord block receipt pointers))
    (first : 1 ≤ block.header.height.toUInt64.toNat → pointers[0]? = some block.header.previous) :
    store.getAncestorIdAtHeight codec block.id (block.header.height.toUInt64 - 1).toNat = .ok block.header.previous ↔
      1 ≤ block.header.height.toUInt64.toNat := by
  rcases Nat.eq_zero_or_pos block.header.height.toUInt64.toNat with zero | positive
  · have above : (newRecord block receipt pointers).blockHeight.toNat < (block.header.height.toUInt64 - 1).toNat := by
      rw [newRecord, UInt64.toNat_sub, zero]
      decide
    rw [getAncestorIdAtHeight_of_gt stored above]
    exact iff_of_false (by rintro ⟨⟩) (by omega)
  · refine iff_of_true ?_ positive
    have target : (block.header.height.toUInt64 - 1).toNat = block.header.height.toUInt64.toNat - 1 := by
      have bound := block.header.height.toUInt64.toNat_lt
      rw [UInt64.toNat_sub, UInt64.toNat_one]
      omega
    obtain ⟨i, small, reaches, chosen⟩ := getPreviousHeightIndex_of_lt (Nat.sub_one_lt_of_lt positive)
    have power : 2 ^ i = 1 := by
      have positive' : 0 < 2 ^ i := Nat.two_pow_pos i
      have jump := two_pow_le positive small
      omega
    obtain rfl : i = 0 := by simpa using power
    have follows : (newRecord block receipt pointers).follow (block.header.height.toUInt64.toNat - 1) =
        .ok (.inl block.header.previous) := by
      rw [BlockRecord.follow, newRecord]
      dsimp only
      rw [if_neg (by omega), chosen]
      dsimp only
      rw [if_neg (by decide), Int.toNat_natCast, first positive]
      dsimp only
      rw [if_pos (by rw [pow_zero])]
    have expects : ∀ h ∈ (none : Option ℕ), h = (newRecord block receipt pointers).blockHeight.toNat := by
      rintro _ ⟨⟩
    rw [getAncestorIdAtHeight, searchRounds, search, searchRound_of_stored stored expects, target, follows]
    rfl

/-- A block that has been written is served if its parent is there. -/
theorem Insertion.serves_iff {req : AddBlockRequest} {bytes : Bytes} (insertion : store.Insertion codec req block bytes)
    (written : store'.blocks = (store.withRecord block.id bytes).blocks) :
    store'.Serves codec block ↔ store.Anchored codec block := by
  obtain ⟨pointers, looked, records⟩ := insertion.records written
  have stored := records block.id
  rw [if_pos rfl] at stored
  have parent := getAncestorIdAtHeight_newRecord stored (head_skipPointers looked)
  have kept : (store'.record? codec block.header.previous).isSome ↔
      block.header.previous = block.id ∨ (store.record? codec block.header.previous).isSome := by
    rw [records]
    split_ifs with own
    · exact iff_of_true rfl (.inl own)
    · exact (or_iff_right own).symm
  constructor
  · intro serves
    exact ⟨parent.mp serves.parent, fun high => kept.mp (serves.reached high),
      exists_skipPointers_eq_ok_iff.mp ⟨pointers, looked⟩⟩
  · intro anchored
    exact ⟨⟨_, mem_getBlocksById_iff.mpr ⟨_, stored, rfl⟩, rfl, rfl⟩, parent.mpr anchored.positive,
      fun high => kept.mpr (anchored.parent high)⟩

/-- A block is served after `add_block` has returned if it was served before, or if it was missing and its
ancestors were there. -/
theorem serves_addBlock_iff {faults : Faults} {req : AddBlockRequest} (asked : req.blockToAdd = some block)
    (returns : addBlock codec faults req store = .ok () store') :
    store'.Serves codec block ↔
      if (store.getRecordBytes block.id).isEmpty then store.Anchored codec block else store.Serves codec block := by
  have outcome := store.outcome_addBlock codec faults req
  rw [returns] at outcome
  cases outcome with
  | present asked' stored =>
    obtain rfl := Option.some.inj (asked.symm.trans asked')
    rw [if_neg (by simp [stored])]
  | omitted asked' missing lost =>
    obtain rfl := Option.some.inj (asked.symm.trans asked')
    rw [if_pos missing]
    refine iff_of_false ?_ ?_
    · intro serves
      rw [serves.stored] at missing
      contradiction
    · intro anchored
      obtain ⟨pointers, looked⟩ := exists_skipPointers_eq_ok_iff.mpr anchored.ancestors
      rw [looked] at lost
      contradiction
  | written insertion | raised insertion =>
    obtain rfl := Option.some.inj (asked.symm.trans insertion.asked)
    rw [if_pos insertion.missing]
    exact insertion.serves_iff rfl

/-- A block of height 2 whose parent is not stored: the call returns, and the block is not there. -/
theorem addBlock_omits_orphan :
    addBlock sampleCodec {} { blockToAdd := some (sampleBlock 2 2 1) } (runCalls sampleCodec []) =
      .ok () (runCalls sampleCodec []) ∧
    (runCalls sampleCodec []).getBlocksById sampleCodec { blockIds := [[2]] } = [] ∧
    ¬ (runCalls sampleCodec []).Serves sampleCodec (sampleBlock 2 2 1) :=
  ⟨rfl, rfl, fun serves => absurd serves.stored (by decide)⟩

theorem serves_addBlock_sample :
    (runCalls sampleCodec sampleCalls).Serves sampleCodec (sampleBlock 2 2 1) := by
  have ok : addBlock sampleCodec {} { blockToAdd := some (sampleBlock 2 2 1) }
      (runCalls sampleCodec (sampleCalls.take 1)) = .ok () (runCalls sampleCodec sampleCalls) := rfl
  refine (serves_addBlock_iff rfl ok).mpr ?_
  rw [if_pos (by decide)]
  refine ⟨by decide, fun _ => .inr rfl, fun h mem => ?_⟩
  obtain rfl | rfl : h = 1 ∨ h = 0 := by simpa using (show h ∈ [1, 0] from mem)
  · exact .inl rfl
  · exact .inr ⟨[0], rfl⟩

end Teleno.BlockStore
