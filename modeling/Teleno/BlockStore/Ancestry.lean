import Teleno.Library.Machine
import Teleno.BlockStore.Store

/-! # Ancestors in the block store

The ancestors of a block are found by following the parents that the stored blocks name. In a store that was
built from linked blocks, every pointer of the skip list leads to such an ancestor, and the search returns it.
The search ends in every store, since each round expects a lower height than the one before.
-/

namespace Teleno.BlockStore

open Library Chain Exec Option

variable {codec : RecordCodec} {store store' : BlockStore}

section Parents

variable (codec) (store)

/-- The parent that a stored block names. -/
def parentId (id : Bytes) : Option Bytes := ((store.record? codec id).bind (·.block)).map (·.header.previous)

/-- The block that is a number of generations above. -/
def ancestor : ℕ → Bytes → Option Bytes
  | 0, id => some id
  | n + 1, id => (store.parentId codec id).bind (ancestor n)

variable {codec store}

theorem ancestor_add (m n : ℕ) (id : Bytes) :
    store.ancestor codec (m + n) id = (store.ancestor codec m id).bind (store.ancestor codec n) := by
  induction m generalizing id with
  | zero => rw [Nat.zero_add, ancestor, bind_some]
  | succ m ih =>
    rw [Nat.succ_add, ancestor, ancestor]
    cases store.parentId codec id with
    | none => rfl
    | some parent => exact ih parent

/-- Every record of one store is in the other. -/
def Retains (codec : RecordCodec) (store store' : BlockStore) : Prop :=
  ∀ id record, store.record? codec id = some record → store'.record? codec id = some record

theorem Retains.parentId (retains : Retains codec store store') {id parent : Bytes}
    (named : store.parentId codec id = some parent) : store'.parentId codec id = some parent := by
  obtain ⟨block, stored, rfl⟩ := map_eq_some_iff.mp named
  obtain ⟨record, kept, held⟩ := bind_eq_some_iff.mp stored
  rw [BlockStore.parentId, retains id record kept, bind_some, held]
  rfl

theorem Retains.ancestor (retains : Retains codec store store') {n : ℕ} {id a : Bytes}
    (found : store.ancestor codec n id = some a) : store'.ancestor codec n id = some a := by
  induction n generalizing id with
  | zero => exact found
  | succ n ih =>
    obtain ⟨parent, named, above⟩ := bind_eq_some_iff.mp found
    rw [BlockStore.ancestor, retains.parentId named, bind_some]
    exact ih above

end Parents

variable {id : Bytes} {record : BlockRecord}

section

variable (stored : store.record? codec id = some record)

include stored

theorem isEmpty_getRecordBytes_of_record : (store.getRecordBytes id).isEmpty = false := by
  rw [record?] at stored
  split at stored
  · contradiction
  · rename_i present
    exact Bool.not_eq_true _ ▸ present

/-- A round on a record of the expected height. -/
theorem searchRound_of_stored {target : ℕ} {expected : Option ℕ}
    (agrees : ∀ height ∈ expected, height = record.blockHeight.toNat) :
    store.searchRound codec target id expected = record.follow target := by
  rw [record?] at stored
  split at stored
  · contradiction
  rename_i present
  have same : expected.any (· ≠ record.blockHeight.toNat) = false := by
    cases expected with
    | none => rfl
    | some height => rw [any_some, agrees height rfl]; simp
  rw [searchRound, if_neg present, stored]
  dsimp only
  rw [same, if_neg Bool.false_ne_true]

/-- A search for a height above the block throws an exception that no request handles. -/
theorem getAncestorIdAtHeight_of_gt {target : ℕ}
    (above : record.blockHeight.toNat < target) : store.getAncestorIdAtHeight codec id target =
      .error (.invalidArgument "goal height must be less than current height") := by
  have round : store.searchRound codec target id none =
      .error (.invalidArgument "goal height must be less than current height") := by
    rw [searchRound_of_stored stored (by rintro _ ⟨⟩), BlockRecord.follow, if_neg (by omega),
      getPreviousHeightIndex, if_pos (by omega)]
  rw [getAncestorIdAtHeight, searchRounds, search, round]
  rfl

end

variable {target : ℕ}

section Termination

variable {rounds : ℕ}

/-- A pointer leads down. -/
theorem BlockRecord.lt_of_follow {record : BlockRecord} {h : ℕ} {previous : Bytes}
    (follows : record.follow target = .ok (.inr (previous, h))) : h < record.blockHeight.toNat := by
  rw [follow] at follows
  split at follows
  · cases follows
  split at follows
  · contradiction
  rename_i index h' chosen
  split at follows
  · contradiction
  split at follows
  · contradiction
  split at follows
  · cases follows
  cases follows
  by_cases lower : target < record.blockHeight.toNat
  · obtain ⟨i, -, -, picked⟩ := getPreviousHeightIndex_of_lt lower
    rw [picked, some.injEq, Prod.mk.injEq] at chosen
    have positive : 0 < 2 ^ i := Nat.two_pow_pos i
    omega
  · rw [getPreviousHeightIndex, if_pos (by omega)] at chosen
    contradiction

/-- A round that goes on has read a record of the expected height, and goes on below it. -/
theorem searchRound_eq_inr {h : ℕ} {previous : Bytes} {expected : Option ℕ}
    (round : store.searchRound codec target id expected = .ok (.inr (previous, h))) :
    ∃ record, store.record? codec id = some record ∧ h < record.blockHeight.toNat ∧
      ∀ height ∈ expected, record.blockHeight.toNat = height := by
  rw [searchRound] at round
  split at round
  · contradiction
  rename_i present
  split at round
  · contradiction
  rename_i record parsed
  split at round
  · contradiction
  rename_i agrees
  refine ⟨record, by rw [record?, if_neg present, parsed], BlockRecord.lt_of_follow round, ?_⟩
  intro height mem
  rw [mem_def] at mem
  rw [mem, any_some, decide_eq_true_eq, not_not] at agrees
  exact agrees.symm

theorem search_isSome_of_lt {height : ℕ} (bound : height < rounds) :
    (store.search codec target rounds id (some height)).isSome := by
  induction rounds generalizing height id with
  | zero => contradiction
  | succ rounds ih =>
    rw [search]
    split
    · rfl
    · rfl
    · rename_i previous h round
      obtain ⟨record, -, lower, same⟩ := searchRound_eq_inr round
      have unchanged := same height rfl
      exact ih (by omega)

/-- More rounds than needed change nothing. -/
theorem search_mono {rounds' : ℕ} {expected : Option ℕ}
    {found : Except StoreException Bytes} (ends : store.search codec target rounds id expected = some found)
    (le : rounds ≤ rounds') : store.search codec target rounds' id expected = some found := by
  induction rounds generalizing rounds' id expected with
  | zero => contradiction
  | succ rounds ih =>
    obtain ⟨more, rfl⟩ := Nat.exists_eq_add_of_le' le
    rw [search] at ends
    rw [Nat.add_succ, search]
    split
    · rename_i e round
      rw [round] at ends
      exact ends
    · rename_i a round
      rw [round] at ends
      exact ends
    · rename_i previous h round
      rw [round] at ends
      exact ih ends (by omega)

theorem search_searchRounds_isSome (codec : RecordCodec) (store : BlockStore) (target : ℕ) (id : Bytes) :
    (store.search codec target (store.searchRounds codec id) id none).isSome := by
  rw [searchRounds, search]
  split
  · rfl
  · rfl
  · rename_i previous h round
    obtain ⟨record, stored, lower, -⟩ := searchRound_eq_inr round
    rw [stored, elim_some]
    exact search_isSome_of_lt lower

/-- Whatever the store holds, the search ends after some round. -/
theorem search_eq_getAncestorIdAtHeight (enough : store.searchRounds codec id ≤ rounds) :
    store.search codec target rounds id none = some (store.getAncestorIdAtHeight codec id target) := by
  obtain ⟨found, ends⟩ := isSome_iff_exists.mp (search_searchRounds_isSome codec store target id)
  rw [getAncestorIdAtHeight, ends, getD_some]
  exact search_mono ends enough

end Termination

/-- The record of a block that is linked to its parent, with the skip list of its ancestors. -/
structure Entry (codec : RecordCodec) (store : BlockStore) (id : Bytes) (record : BlockRecord) : Prop where
  blockId : record.blockId = id
  positive : 1 ≤ record.blockHeight.toNat
  parent : ∃ previous, store.parentId codec id = some previous ∧ (record.blockHeight.toNat = 1 ∨
    ∃ above, store.record? codec previous = some above ∧ above.blockHeight.toNat + 1 = record.blockHeight.toNat)
  pointers : ∀ i ≤ countrZero record.blockHeight.toNat,
    record.previousBlockIds[i]? = store.ancestor codec (2 ^ i) id

/-- Every record is linked. -/
def Linked (codec : RecordCodec) (store : BlockStore) : Prop :=
  ∀ id record, store.record? codec id = some record → store.Entry codec id record

namespace Linked

/-- The ancestors above the genesis are stored, with their heights. -/
theorem stored_ancestor (linked : store.Linked codec) (stored : store.record? codec id = some record) {n : ℕ}
    (below : n < record.blockHeight.toNat) : ∃ a above, store.ancestor codec n id = some a ∧
      store.record? codec a = some above ∧ above.blockHeight.toNat = record.blockHeight.toNat - n := by
  induction n with
  | zero => exact ⟨id, record, rfl, stored, rfl⟩
  | succ n ih =>
    obtain ⟨a, above, found, kept, height⟩ := ih (by omega)
    obtain ⟨previous, named, bottom | ⟨next, kept', height'⟩⟩ := (linked a above kept).parent
    · omega
    · refine ⟨previous, next, ?_, kept', by omega⟩
      rw [ancestor_add, found, bind_some, ancestor, named, bind_some, ancestor]

/-- There are as many generations above a block as its height says. -/
theorem ancestor_isSome (linked : store.Linked codec) (stored : store.record? codec id = some record) {n : ℕ}
    (le : n ≤ record.blockHeight.toNat) : (store.ancestor codec n id).isSome := by
  cases n with
  | zero => rfl
  | succ n =>
    obtain ⟨a, above, found, kept, -⟩ := linked.stored_ancestor stored le
    obtain ⟨previous, named, -⟩ := (linked a above kept).parent
    rw [ancestor_add, found, bind_some, ancestor, named, bind_some, ancestor]
    rfl

variable {expected : Option ℕ}

section

variable (linked : store.Linked codec) (stored : store.record? codec id = some record)
  (agrees : ∀ height ∈ expected, height = record.blockHeight.toNat)

include linked stored agrees

/-- A round that starts at its target ends there. -/
theorem searchRound_self (same : target = record.blockHeight.toNat) :
    store.searchRound codec target id expected = .ok (.inl id) := by
  rw [searchRound_of_stored stored agrees, BlockRecord.follow, if_pos same.symm, (linked id record stored).blockId]

/-- What a round does below its target, on a linked record. -/
theorem searchRound_eq (below : target < record.blockHeight.toNat) :
    ∃ i ≤ countrZero record.blockHeight.toNat, ∃ a, target ≤ record.blockHeight.toNat - 2 ^ i ∧
      store.ancestor codec (2 ^ i) id = some a ∧ store.searchRound codec target id expected =
        if record.blockHeight.toNat - 2 ^ i = target then .ok (.inl a)
        else .ok (.inr (a, record.blockHeight.toNat - 2 ^ i)) := by
  have entry := linked id record stored
  obtain ⟨i, small, reaches, chosen⟩ := getPreviousHeightIndex_of_lt below
  have le := two_pow_le entry.positive small
  obtain ⟨a, found⟩ := isSome_iff_exists.mp (linked.ancestor_isSome stored le)
  refine ⟨i, small, a, reaches, found, ?_⟩
  rw [searchRound_of_stored stored agrees, BlockRecord.follow, if_neg (by omega), chosen]
  dsimp only
  rw [if_neg (by omega), Int.toNat_natCast, entry.pointers i small, found]

/-- The search finds the ancestor, whatever the number of rounds it has, if that is enough. -/
theorem search_eq {rounds : ℕ} (le : target ≤ record.blockHeight.toNat) (enough : record.blockHeight.toNat < rounds) :
    ∃ a, store.ancestor codec (record.blockHeight.toNat - target) id = some a ∧
      store.search codec target rounds id expected = some (.ok a) := by
  induction rounds generalizing id record expected with
  | zero => contradiction
  | succ rounds ih =>
    rcases le.eq_or_lt with same | below
    · have reads := linked.searchRound_self stored agrees same
      refine ⟨id, by rw [same, Nat.sub_self, ancestor], ?_⟩
      rw [search, reads]
    · obtain ⟨i, small, a, reaches, found, round⟩ := linked.searchRound_eq stored agrees below
      have positive : 0 < 2 ^ i := Nat.two_pow_pos i
      have jump := two_pow_le (linked id record stored).positive small
      rw [search, round]
      split_ifs with hit
      · have distance : record.blockHeight.toNat - target = 2 ^ i := by omega
        rw [distance]
        exact ⟨a, found, rfl⟩
      · obtain ⟨a', above, found', kept, height⟩ :=
          linked.stored_ancestor stored (show 2 ^ i < record.blockHeight.toNat by omega)
        obtain rfl := some.inj (found'.symm.trans found)
        have expects : ∀ h ∈ some (record.blockHeight.toNat - 2 ^ i), h = above.blockHeight.toNat := by
          rintro _ ⟨⟩
          exact height.symm
        obtain ⟨b, reached, ends⟩ := ih kept expects (by omega) (by omega)
        refine ⟨b, ?_, ends⟩
        have distance : record.blockHeight.toNat - target = 2 ^ i + (above.blockHeight.toNat - target) := by omega
        rw [distance, ancestor_add, found, bind_some, reached]

end

theorem getAncestorIdAtHeight_eq (linked : store.Linked codec) (stored : store.record? codec id = some record)
    (le : target ≤ record.blockHeight.toNat) :
    ∃ a, store.ancestor codec (record.blockHeight.toNat - target) id = some a ∧
      store.getAncestorIdAtHeight codec id target = .ok a := by
  have rounds : store.searchRounds codec id = record.blockHeight.toNat + 1 := by
    rw [searchRounds, stored, elim_some]
  have expects : ∀ h ∈ (none : Option ℕ), h = record.blockHeight.toNat := by rintro _ ⟨⟩
  obtain ⟨a, found, ends⟩ := linked.search_eq stored expects le (Nat.lt_succ_self record.blockHeight.toNat)
  refine ⟨a, found, ?_⟩
  rw [getAncestorIdAtHeight, rounds, ends, getD_some]

end Linked

section Insertion

variable {req : AddBlockRequest} {block : Block} {bytes : Bytes}

section

variable (insertion : store.Insertion codec req block bytes)

include insertion

theorem Insertion.missing_record : store.record? codec block.id = none := if_pos insertion.missing

/-- A new record is added and the others stay. -/
theorem Insertion.records (written : store'.blocks = (store.withRecord block.id bytes).blocks) :
    ∃ pointers, store.skipPointers codec block.header.previous block.header.height.toUInt64.toNat = .ok pointers ∧
      ∀ id, store'.record? codec id =
        if id = block.id then some (newRecord block req.receiptToAdd pointers) else store.record? codec id := by
  obtain ⟨pointers, looked, serialized⟩ := insertion.serialized
  refine ⟨pointers, looked, fun id => ?_⟩
  rw [record?, getRecordBytes_of_update written]
  split
  · have nonempty : ¬ bytes.isEmpty = true := by
      intro empty
      rw [List.isEmpty_iff] at empty
      exact codec.serializeRecord_ne_nil _ rfl (empty ▸ serialized)
    rw [if_neg nonempty]
    exact codec.parse_serializeRecord _ _ serialized
  · rfl

theorem Insertion.retains
    (written : store'.blocks = (store.withRecord block.id bytes).blocks) : Retains codec store store' := by
  intro id record stored
  obtain ⟨pointers, -, records⟩ := insertion.records written
  rw [records, if_neg]
  · exact stored
  · rintro rfl
    rw [insertion.missing_record] at stored
    contradiction

end

end Insertion

/-- The height of a block is one more than that of its stored parent; the first blocks have height 1. -/
def Fits (codec : RecordCodec) (store : BlockStore) (block : Block) : Prop :=
  block.header.height.toUInt64.toNat = 1 ∨ ∃ above, store.record? codec block.header.previous = some above ∧
    above.blockHeight.toNat + 1 = block.header.height.toUInt64.toNat

/-- What a list that was mapped without an exception holds at an index. -/
theorem getElem?_of_mapM {α β : Type} {f : α → Except StoreException β} {list : List α} {mapped : List β}
    (returns : list.mapM f = .ok mapped) {i : ℕ} {a : α} (mem : list[i]? = some a) :
    ∃ b, f a = .ok b ∧ mapped[i]? = some b := by
  induction list generalizing mapped i with
  | nil => contradiction
  | cons head rest ih =>
    rw [List.mapM_cons] at returns
    cases first : f head with
    | error e => rw [first] at returns; contradiction
    | ok b =>
      rw [first] at returns
      cases later : rest.mapM f with
      | error e => rw [later] at returns; contradiction
      | ok bs =>
        rw [later] at returns
        cases returns
        cases i with
        | zero =>
          cases mem
          exact ⟨b, first, rfl⟩
        | succ i => exact ih later mem

/-- The pointers of a fitting block lead to the ancestors of its parent. -/
theorem Linked.skipPointers_eq (linked : store.Linked codec) {block : Block} (fits : store.Fits codec block)
    {pointers : List Bytes}
    (looked : store.skipPointers codec block.header.previous block.header.height.toUInt64.toNat = .ok pointers) {i : ℕ}
    (small : i ≤ countrZero block.header.height.toUInt64.toNat) :
    ∃ a, pointers[i]? = some a ∧ store.ancestor codec (2 ^ i - 1) block.header.previous = some a := by
  rw [skipPointers] at looked
  rcases fits with bottom | ⟨above, stored, height⟩
  · rw [bottom] at small looked
    cases looked
    obtain rfl : i = 0 := Nat.le_zero.mp small
    exact ⟨_, rfl, rfl⟩
  · have positive := (linked _ _ stored).positive
    rw [if_pos (by omega)] at looked
    obtain ⟨pointer, found, held⟩ := getElem?_of_mapM looked (getElem?_getPreviousHeights (by omega) small)
    have power : 0 < 2 ^ i := Nat.two_pow_pos i
    have jump : 2 ^ i ≤ block.header.height.toUInt64.toNat := two_pow_le (by omega) small
    refine ⟨pointer, held, ?_⟩
    split_ifs at found with direct
    · have one : 2 ^ i - 1 = 0 := by omega
      rw [one, ancestor, Except.ok.inj found]
    · obtain ⟨a, reached, answer⟩ := linked.getAncestorIdAtHeight_eq stored
        (show block.header.height.toUInt64.toNat - 2 ^ i ≤ above.blockHeight.toNat by omega)
      have distance : above.blockHeight.toNat - (block.header.height.toUInt64.toNat - 2 ^ i) = 2 ^ i - 1 := by omega
      rw [← distance, reached, Except.ok.inj (found.symm.trans answer)]

/-- Adding a fitting block keeps every record linked. -/
theorem Linked.insert (linked : store.Linked codec) {req : AddBlockRequest} {block : Block} {bytes : Bytes}
    (insertion : store.Insertion codec req block bytes) (fits : store.Fits codec block)
    (written : store'.blocks = (store.withRecord block.id bytes).blocks) : store'.Linked codec := by
  obtain ⟨pointers, looked, records⟩ := insertion.records written
  have retains := insertion.retains written
  intro id record stored
  by_cases fresh : id = block.id
  · have same := records id
    rw [if_pos fresh, stored] at same
    obtain rfl := some.inj same
    have named : store'.parentId codec id = some block.header.previous := by
      rw [parentId, stored]
      rfl
    refine ⟨fresh.symm, ?_, ⟨_, named, ?_⟩, ?_⟩
    · rcases fits with bottom | ⟨above, -, height⟩
      · exact bottom.ge
      · exact height ▸ Nat.le_add_left 1 _
    · rcases fits with bottom | ⟨above, kept, height⟩
      · exact .inl bottom
      · exact .inr ⟨above, retains _ _ kept, height⟩
    · intro i small
      have power : 2 ^ i = 1 + (2 ^ i - 1) := by
        have positive : 0 < 2 ^ i := Nat.two_pow_pos i
        omega
      obtain ⟨a, held, above⟩ := linked.skipPointers_eq fits looked small
      rw [power, ancestor_add, ancestor, named, bind_some, ancestor, bind_some, retains.ancestor above]
      exact held
  · have kept : store.record? codec id = some record := by
      rw [records, if_neg fresh] at stored
      exact stored
    obtain ⟨blockId, positive, ⟨previous, named, above⟩, skips⟩ := linked id record kept
    refine ⟨blockId, positive, ⟨previous, retains.parentId named, ?_⟩, ?_⟩
    · rcases above with bottom | ⟨next, kept', height⟩
      · exact .inl bottom
      · exact .inr ⟨next, retains _ _ kept', height⟩
    · intro i small
      obtain ⟨a, found⟩ := isSome_iff_exists.mp (linked.ancestor_isSome kept (two_pow_le positive small))
      rw [skips i small, found, retains.ancestor found]

/-- A call of `add_block`, with the writes that fail. -/
structure AddCall where
  req : AddBlockRequest
  faults : Faults := {}

/-- All runs of calls on an empty block store. -/
def machine (codec : RecordCodec) : Machine BlockStore AddCall where
  init store := ∀ id, store.blocks id = none
  step store call store' := store' = final (addBlock codec call.faults call.req store)

/-- The block of a call fits. -/
def AddCall.Fits (codec : RecordCodec) (store : BlockStore) (call : AddCall) : Prop :=
  ∀ block, call.req.blockToAdd = some block → store.Fits codec block

theorem Linked.addBlock (linked : store.Linked codec) {call : AddCall} (fits : call.Fits codec store) :
    (final (addBlock codec call.faults call.req store)).Linked codec := by
  have outcome := store.outcome_addBlock codec call.faults call.req
  generalize BlockStore.addBlock codec call.faults call.req store = result at outcome
  cases outcome with
  | refused | present | omitted => exact linked
  | written insertion | interrupted insertion | raised insertion =>
    exact linked.insert insertion (fits _ insertion.asked) rfl

theorem linked_of_reachable (reached : (machine codec).Reachable (fun store call => call.Fits codec store) store) :
    store.Linked codec := by
  refine reached.invariant ?_ ?_
  · intro store empty id record stored
    rw [record?, getRecordBytes, empty] at stored
    contradiction
  · rintro store call _ linked fits rfl
    exact linked.addBlock fits

/-- In a store built from linked blocks the pointers lead to the ancestors and the search returns them. In
every store the search ends. -/
theorem skip_list_exact (codec : RecordCodec) :
    (∀ store, (machine codec).Reachable (fun store call => call.Fits codec store) store →
      ∀ id record, store.record? codec id = some record →
        (∀ i ≤ countrZero record.blockHeight.toNat, ∃ a, store.ancestor codec (2 ^ i) id = some a ∧
          record.previousBlockIds[i]? = some a) ∧
        ∀ target ≤ record.blockHeight.toNat, ∃ a,
          store.ancestor codec (record.blockHeight.toNat - target) id = some a ∧
          store.getAncestorIdAtHeight codec id target = .ok a) ∧
    ∀ (store : BlockStore) id target, ∃ enough, ∀ rounds ≥ enough,
      store.search codec target rounds id none = some (store.getAncestorIdAtHeight codec id target) := by
  refine ⟨?_, fun store id target => ⟨_, fun rounds enough => search_eq_getAncestorIdAtHeight enough⟩⟩
  intro store reached id record stored
  have linked := linked_of_reachable reached
  refine ⟨fun i small => ?_, fun target le => linked.getAncestorIdAtHeight_eq stored le⟩
  have entry := linked id record stored
  obtain ⟨a, found⟩ := isSome_iff_exists.mp (linked.ancestor_isSome stored (two_pow_le entry.positive small))
  exact ⟨a, found, (entry.pointers i small).trans found⟩

section Sample

/-- Blocks that are told apart by one byte. -/
def sampleBlock (id height previous : UInt8) : Block :=
  { id := [id], header := { previous := [previous], height := height.toNat } }

/-- The calls that add a first block and its child. -/
def sampleCalls : List AddCall :=
  [{ req := { blockToAdd := some (sampleBlock 1 1 0) } }, { req := { blockToAdd := some (sampleBlock 2 2 1) } }]

def sampleCodec : RecordCodec := .ofTables
  [newRecord (sampleBlock 1 1 0) none [[0]], newRecord (sampleBlock 2 2 1) none [[1], [0]]]
  [newTopology (sampleBlock 1 1 0), newTopology (sampleBlock 2 2 1), { id := List.replicate 34 0 }]

/-- The store after some calls. -/
def runCalls (codec : RecordCodec) (calls : List AddCall) : BlockStore :=
  calls.foldl (fun store call => final (addBlock codec call.faults call.req store)) ⟨fun _ => none, none⟩

theorem skip_list_exact_sample : ∃ a, (runCalls sampleCodec sampleCalls).ancestor sampleCodec 2 [2] = some a ∧
    (runCalls sampleCodec sampleCalls).getAncestorIdAtHeight sampleCodec [2] 0 = .ok a := by
  have empty : (machine sampleCodec).Reachable (fun store call => call.Fits sampleCodec store)
      (runCalls sampleCodec []) := .start fun _ => rfl
  have first : (machine sampleCodec).Reachable (fun store call => call.Fits sampleCodec store)
      (runCalls sampleCodec (sampleCalls.take 1)) := by
    refine .next empty (a := { req := { blockToAdd := some (sampleBlock 1 1 0) } }) ?_ rfl
    rintro _ ⟨⟩
    exact .inl (by decide)
  have reached : (machine sampleCodec).Reachable (fun store call => call.Fits sampleCodec store)
      (runCalls sampleCodec sampleCalls) := by
    refine .next first (a := { req := { blockToAdd := some (sampleBlock 2 2 1) } }) ?_ rfl
    rintro _ ⟨⟩
    exact .inr ⟨_, rfl, by decide⟩
  exact ((skip_list_exact sampleCodec).1 _ reached [2] _ rfl).2 0 (by decide)

end Sample

end Teleno.BlockStore
