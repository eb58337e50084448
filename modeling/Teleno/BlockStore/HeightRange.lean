import Mathlib.Data.List.TakeWhile
import Teleno.BlockStore.Ancestry

/-! # Ranges of heights

A request for a range of heights is answered with the ancestors of a head block in ascending order, if the
range ends at or below the head. A range that ends above the head makes the ancestor search throw an exception
that is not handled. A block with an empty id ends the walk.
-/

namespace Teleno.BlockStore

open Library Chain List Option

variable {codec : RecordCodec} {store store' : BlockStore}

section Order

/-- A block whose parent is stored is one higher than it, now and after the block has been added: the parent of
a first block is not stored, and a block comes before its children. -/
structure Follows (codec : RecordCodec) (store : BlockStore) (block : Block) : Prop where
  fits : store.Fits codec block
  first : block.header.height.toUInt64.toNat = 1 → store.record? codec block.header.previous = none
  childless : ∀ id, store.parentId codec id ≠ some block.id
  other : block.header.previous ≠ block.id

def AddCall.Follows (codec : RecordCodec) (store : BlockStore) (call : AddCall) : Prop :=
  ∀ block, call.req.blockToAdd = some block → store.Follows codec block

/-- The parent of a first block is not stored. -/
def Rooted (codec : RecordCodec) (store : BlockStore) : Prop :=
  ∀ id record previous, store.record? codec id = some record → record.blockHeight.toNat = 1 →
    store.parentId codec id = some previous → store.record? codec previous = none

theorem Rooted.insert (rooted : store.Rooted codec) {req : AddBlockRequest} {block : Block} {bytes : Bytes}
    (insertion : store.Insertion codec req block bytes) (follows : store.Follows codec block)
    (written : store'.blocks = (store.withRecord block.id bytes).blocks) : store'.Rooted codec := by
  obtain ⟨pointers, -, records⟩ := insertion.records written
  intro id record previous stored bottom named
  by_cases fresh : id = block.id
  · have same := records id
    rw [if_pos fresh, stored] at same
    obtain rfl := some.inj same
    rw [parentId, stored] at named
    obtain rfl : block.header.previous = previous := some.inj named
    rw [records, if_neg follows.other]
    exact follows.first bottom
  · have kept : store.record? codec id = some record := by
      rw [records, if_neg fresh] at stored
      exact stored
    have named' : store.parentId codec id = some previous := by
      rw [parentId, stored] at named
      rw [parentId, kept]
      exact named
    rw [records, if_neg]
    · exact rooted id record previous kept bottom named'
    · rintro rfl
      exact follows.childless id named'

/-- The genesis is not stored. -/
theorem Rooted.genesis (rooted : store.Rooted codec) (linked : store.Linked codec) {id a : Bytes} {record : BlockRecord}
    (stored : store.record? codec id = some record)
    (found : store.ancestor codec record.blockHeight.toNat id = some a) : store.record? codec a = none := by
  have positive := (linked id record stored).positive
  obtain ⟨first, bottom, found', kept, height⟩ := linked.stored_ancestor stored
    (show record.blockHeight.toNat - 1 < record.blockHeight.toNat by omega)
  have last : record.blockHeight.toNat = record.blockHeight.toNat - 1 + 1 := by omega
  rw [last, ancestor_add, found', bind_some, ancestor] at found
  obtain ⟨previous, named, same⟩ := bind_eq_some_iff.mp found
  obtain rfl := some.inj same
  exact rooted first bottom previous kept (by omega) named

theorem rooted_of_reachable (reached : (machine codec).Reachable (fun store call => call.Follows codec store) store) :
    store.Rooted codec := by
  refine reached.invariant ?_ ?_
  · intro store empty id record previous stored
    rw [record?, getRecordBytes, empty] at stored
    contradiction
  · rintro store call _ rooted follows rfl
    have outcome := store.outcome_addBlock codec call.faults call.req
    generalize addBlock codec call.faults call.req store = result at outcome
    cases outcome with
    | refused | present | omitted => exact rooted
    | written insertion | interrupted insertion | raised insertion =>
      exact rooted.insert insertion (follows _ insertion.asked) rfl

end Order

variable {returnBlock returnReceipt : Bool} {record : BlockRecord} {count : ℕ}

section Walk

variable {id : Bytes}

/-- The height that the walk expects next. -/
theorem expected_height (positive : 1 ≤ record.blockHeight.toNat) :
    (record.blockHeight.toNat + 2 ^ 64 - 1) % 2 ^ 64 = record.blockHeight.toNat - 1 := by
  have bound := record.blockHeight.toNat_lt
  omega

variable {expected : Option ℕ}

/-- One step of the walk. -/
theorem fillBlocks_succ (named : id ≠ []) (stored : store.record? codec id = some record)
    (agrees : ∀ height ∈ expected, height = record.blockHeight.toNat) :
    store.fillBlocks codec returnBlock returnReceipt (count + 1) id expected =
      record.item returnBlock returnReceipt :: store.fillBlocks codec returnBlock returnReceipt count
        (record.previousBlockIds.head?.getD []) (some ((record.blockHeight.toNat + 2 ^ 64 - 1) % 2 ^ 64)) := by
  have same : expected.any (· ≠ record.blockHeight.toNat) = false := by
    cases expected with
    | none => rfl
    | some height => rw [any_some, agrees height rfl]; simp
  rw [fillBlocks, if_neg (by simpa using named), stored]
  dsimp only
  rw [same, if_neg Bool.false_ne_true]

/-- The first pointer of a linked block leads to its parent. -/
theorem Linked.head_pointer (linked : store.Linked codec) (stored : store.record? codec id = some record) :
    record.previousBlockIds.head? = store.ancestor codec 1 id := by
  rw [head?_eq_getElem?]
  exact (linked id record stored).pointers 0 (Nat.zero_le _)

/-- The item of the block that is a number of generations above. -/
def ancestorItem (codec : RecordCodec) (store : BlockStore) (returnBlock returnReceipt : Bool) (id : Bytes)
    (n : ℕ) : Option BlockItem :=
  ((store.ancestor codec n id).bind (store.record? codec)).map (·.item returnBlock returnReceipt)

/-- The walk collects the ancestors of a block up to the first one whose id is empty. -/
theorem Linked.fillBlocks_eq (linked : store.Linked codec) (stored : store.record? codec id = some record)
    (agrees : ∀ height ∈ expected, height = record.blockHeight.toNat) (room : count ≤ record.blockHeight.toNat) :
    (store.fillBlocks codec returnBlock returnReceipt count id expected).map some =
      ((range count).takeWhile fun n => store.ancestor codec n id ≠ some []).map
        (store.ancestorItem codec returnBlock returnReceipt id) := by
  induction count generalizing id record expected with
  | zero => rfl
  | succ count ih =>
    rw [range_succ_eq_map]
    by_cases empty : id = []
    · rw [takeWhile_cons_of_neg (by simp [ancestor, empty]), fillBlocks, if_pos (by simp [empty])]
      rfl
    rw [takeWhile_cons_of_pos (by simp [ancestor, empty]), fillBlocks_succ empty stored agrees, map_cons, map_cons,
      takeWhile_map, List.map_map]
    congr 1
    · rw [ancestorItem, ancestor, bind_some, stored, map_some]
    · rcases Nat.eq_zero_or_pos count with rfl | more
      · rfl
      · obtain ⟨a, above, found, kept, height⟩ :=
          linked.stored_ancestor stored (show 1 < record.blockHeight.toNat by omega)
        rw [linked.head_pointer stored, found, getD_some, expected_height (by omega)]
        have shifted : ∀ n, store.ancestor codec (n + 1) id = store.ancestor codec n a := by
          intro n
          rw [Nat.add_comm, ancestor_add, found, bind_some]
        rw [ih kept (by rintro _ ⟨⟩; exact height.symm) (by omega)]
        simp [Function.comp_def, ancestorItem, shifted]

/-- A walk that collects anything has found a record of the expected height, and the rest comes after it. -/
theorem fillBlocks_eq_cons {item : BlockItem} {rest : List BlockItem}
    (collected : store.fillBlocks codec returnBlock returnReceipt count id expected = item :: rest) :
    ∃ n record, count = n + 1 ∧ id ≠ [] ∧ store.record? codec id = some record ∧
      (∀ height ∈ expected, height = record.blockHeight.toNat) ∧ item = record.item returnBlock returnReceipt ∧
      rest = store.fillBlocks codec returnBlock returnReceipt n (record.previousBlockIds.head?.getD [])
        (some ((record.blockHeight.toNat + 2 ^ 64 - 1) % 2 ^ 64)) := by
  cases count with
  | zero => contradiction
  | succ n =>
    rw [fillBlocks] at collected
    split at collected
    · contradiction
    rename_i named
    split at collected
    · contradiction
    rename_i record stored
    split at collected
    · contradiction
    rename_i agrees
    obtain ⟨rfl, rfl⟩ := cons.inj collected
    refine ⟨n, record, rfl, by simpa using named, stored, ?_, rfl, rfl⟩
    intro height mem
    rw [mem_def] at mem
    rw [mem, any_some, decide_eq_true_eq, not_not] at agrees
    exact agrees

/-- The walk never goes up. -/
theorem Linked.blockHeight_le_of_mem_fillBlocks (linked : store.Linked codec)
    (stored : store.record? codec id = some record) {item : BlockItem}
    (mem : item ∈ store.fillBlocks codec returnBlock returnReceipt count id expected) :
    item.blockHeight.toNat ≤ record.blockHeight.toNat := by
  induction count generalizing id record expected with
  | zero => contradiction
  | succ count ih =>
    cases collected : store.fillBlocks codec returnBlock returnReceipt (count + 1) id expected with
    | nil => rw [collected] at mem; contradiction
    | cons first rest =>
      obtain ⟨n, record', same, -, stored', -, rfl, rfl⟩ := fillBlocks_eq_cons collected
      obtain rfl := some.inj (stored.symm.trans stored')
      obtain rfl : count = n := by omega
      rw [collected] at mem
      rcases mem_cons.mp mem with rfl | later
      · exact le_rfl
      · cases tail : store.fillBlocks codec returnBlock returnReceipt count
            (record.previousBlockIds.head?.getD []) (some ((record.blockHeight.toNat + 2 ^ 64 - 1) % 2 ^ 64)) with
        | nil => rw [tail] at later; contradiction
        | cons next rest' =>
          obtain ⟨_, above, -, -, kept, height, -, -⟩ := fillBlocks_eq_cons tail
          have lower := height _ rfl
          rw [expected_height (linked id record stored).positive] at lower
          have below := ih kept later
          omega

end Walk

section Range

variable {head a : Bytes} {first last : ℕ}

/-- The walk down a range of heights, turned around, gives the range, unless a block in it has an empty id. -/
theorem Linked.reverse_fillBlocks_eq_iff (linked : store.Linked codec) (stored : store.record? codec head = some record)
    (positive : 1 ≤ first) (size : last + 1 = first + count) (nonempty : 1 ≤ count)
    (below : last ≤ record.blockHeight.toNat)
    (found : store.ancestor codec (record.blockHeight.toNat - last) head = some a) :
    (store.fillBlocks codec returnBlock returnReceipt count a none).reverse.map some =
        (range' first count).map (fun height =>
          store.ancestorItem codec returnBlock returnReceipt head (record.blockHeight.toNat - height)) ↔
      ∀ height, first ≤ height → height ≤ last →
        store.ancestor codec (record.blockHeight.toNat - height) head ≠ some [] := by
  have shifted : ∀ n, store.ancestor codec n a =
      store.ancestor codec (record.blockHeight.toNat - last + n) head := by
    intro n
    rw [ancestor_add, found, bind_some]
  obtain ⟨a', above, found', kept, height⟩ := linked.stored_ancestor stored
    (show record.blockHeight.toNat - last < record.blockHeight.toNat by omega)
  obtain rfl := some.inj (found.symm.trans found')
  have collected : (store.fillBlocks codec returnBlock returnReceipt count a none).map some =
      ((range count).takeWhile fun n => store.ancestor codec n a ≠ some []).map
        (store.ancestorItem codec returnBlock returnReceipt a) :=
    linked.fillBlocks_eq kept (by rintro _ ⟨⟩) (by omega)
  rw [map_reverse, collected]
  constructor
  · intro same t low high empty
    have lengths := congrArg length same
    rw [length_reverse, length_map, length_map, length_range'] at lengths
    have whole := takeWhile_eq_self_iff.mp ((takeWhile_sublist _).eq_of_length (lengths.trans length_range.symm))
    have named := whole (last - t) (mem_range.mpr (by omega))
    have distance : record.blockHeight.toNat - last + (last - t) = record.blockHeight.toNat - t := by omega
    rw [shifted, distance, empty] at named
    simp at named
  · intro named
    have walked : ∀ n ∈ range count, decide (store.ancestor codec n a ≠ some []) = true := by
      intro n mem
      have bound := mem_range.mp mem
      have distance : record.blockHeight.toNat - last + n = record.blockHeight.toNat - (last - n) := by omega
      rw [shifted, distance]
      exact decide_eq_true (named _ (by omega) (by omega))
    rw [takeWhile_eq_self_iff.mpr walked]
    refine ext_getElem (by simp) fun i bound bound' => ?_
    rw [length_map, length_range'] at bound'
    simp only [getElem_reverse, getElem_map, getElem_range, getElem_range', length_map,
      length_range, Nat.one_mul, ancestorItem, shifted]
    have distance : record.blockHeight.toNat - last + (count - 1 - i) = record.blockHeight.toNat - (first + i) := by
      omega
    rw [distance]

/-- One item in either order. -/
theorem reverse_fillBlocks_one (codec : RecordCodec) (store : BlockStore) (returnBlock returnReceipt : Bool)
    (id : Bytes) : (store.fillBlocks codec returnBlock returnReceipt 1 id none).reverse =
      store.fillBlocks codec returnBlock returnReceipt 1 id none := by
  cases collected : store.fillBlocks codec returnBlock returnReceipt 1 id none with
  | nil => rfl
  | cons item rest =>
    obtain ⟨n, record, same, -, -, -, -, rfl⟩ := fillBlocks_eq_cons collected
    obtain rfl : n = 0 := by omega
    rfl

/-- The last height that a request asks for. -/
def GetBlocksByHeightRequest.lastHeight (req : GetBlocksByHeightRequest) : ℕ :=
  req.ancestorStartHeight.toNat + req.count - 1

/-- The ancestors of the head in the range of the request, in ascending order, cut off at the head. -/
def requestedItems (codec : RecordCodec) (store : BlockStore) (req : GetBlocksByHeightRequest) (height : ℕ) :
    List (Option BlockItem) :=
  (List.range' req.ancestorStartHeight.toNat
    (min req.lastHeight height + 1 - req.ancestorStartHeight.toNat)).map fun t =>
      store.ancestorItem codec req.returnBlock req.returnReceipt req.headBlockId (height - t)

/-- The request is answered with exactly the requested blocks. -/
def AnswersExactly (codec : RecordCodec) (store : BlockStore) (req : GetBlocksByHeightRequest) (height : ℕ) : Prop :=
  ∃ items, store.getBlocksByHeight codec req = .ok items ∧ items.map some = store.requestedItems codec req height

variable {req : GetBlocksByHeightRequest}

theorem getBlocksByHeight_eq (start : req.ancestorStartHeight ≠ 0) (asks : 1 ≤ req.count) :
    store.getBlocksByHeight codec req = emptyIfMissing (store.collectBlocks codec req) := by
  rw [getBlocksByHeight, if_neg start, if_neg (by omega)]

theorem not_answersExactly_of_error {height : ℕ} {message : String} (start : req.ancestorStartHeight ≠ 0)
    (asks : 1 ≤ req.count) (err : store.collectBlocks codec req = .error (.invalidArgument message)) :
    ¬ store.AnswersExactly codec req height := by
  rintro ⟨items, answer, -⟩
  rw [getBlocksByHeight_eq start asks, err] at answer
  contradiction

/-- What is collected when both ends of the range are at or below the head. -/
theorem Linked.collectBlocks_eq (linked : store.Linked codec)
    (stored : store.record? codec req.headBlockId = some record)
    (below : req.ancestorStartHeight.toNat ≤ record.blockHeight.toNat)
    (ends : req.lastHeight % 2 ^ 64 ≤ record.blockHeight.toNat) (asks : 1 ≤ req.count) :
    ∃ a, store.ancestor codec (record.blockHeight.toNat - req.lastHeight % 2 ^ 64) req.headBlockId = some a ∧
      store.collectBlocks codec req =
        .ok (store.fillBlocks codec req.returnBlock req.returnReceipt req.count a none).reverse := by
  obtain ⟨start, found, reached⟩ := linked.getAncestorIdAtHeight_eq stored below
  obtain ⟨a, found', reached'⟩ := linked.getAncestorIdAtHeight_eq stored ends
  refine ⟨a, found', ?_⟩
  rw [GetBlocksByHeightRequest.lastHeight] at reached'
  rw [collectBlocks, reached]
  by_cases many : 1 < req.count
  · simp only [if_pos many, reached']
    rfl
  · have bound := req.ancestorStartHeight.toNat_lt
    have single : req.count = 1 := by omega
    have same : req.lastHeight % 2 ^ 64 = req.ancestorStartHeight.toNat := by
      rw [GetBlocksByHeightRequest.lastHeight, single]
      omega
    rw [same, found] at found'
    obtain rfl := some.inj found'
    simp only [single, reverse_fillBlocks_one]
    rfl

/-- A range that starts above the head. -/
theorem collectBlocks_of_start_gt (stored : store.record? codec req.headBlockId = some record)
    (above : record.blockHeight.toNat < req.ancestorStartHeight.toNat) :
    store.collectBlocks codec req =
      .error (.invalidArgument "goal height must be less than current height") := by
  rw [collectBlocks, getAncestorIdAtHeight_of_gt stored above]
  rfl

/-- A range that ends above the head: the exception of the search leaves the request. -/
theorem Linked.collectBlocks_of_gt (linked : store.Linked codec)
    (stored : store.record? codec req.headBlockId = some record) (above : record.blockHeight.toNat < req.lastHeight)
    (range : req.lastHeight < 2 ^ 64) :
    store.collectBlocks codec req =
      .error (.invalidArgument "goal height must be less than current height") := by
  by_cases below : req.ancestorStartHeight.toNat ≤ record.blockHeight.toNat
  · obtain ⟨start, -, reached⟩ := linked.getAncestorIdAtHeight_eq stored below
    have err := getAncestorIdAtHeight_of_gt stored above
    rw [← Nat.mod_eq_of_lt range, GetBlocksByHeightRequest.lastHeight] at err
    have many : 1 < req.count := by
      rw [GetBlocksByHeightRequest.lastHeight] at above
      omega
    rw [collectBlocks, reached]
    simp only [if_pos many, err]
    rfl
  · exact collectBlocks_of_start_gt stored (Nat.lt_of_not_le below)

/-- A range that passes the last height of 64 bits starts the walk below the range. -/
theorem Linked.not_mem_fillBlocks_of_wrap (linked : store.Linked codec) (rooted : store.Rooted codec)
    (stored : store.record? codec head = some record) (below : last < record.blockHeight.toNat)
    (found : store.ancestor codec (record.blockHeight.toNat - last) head = some a) {item : BlockItem}
    (high : item.blockHeight = record.blockHeight) :
    item ∉ store.fillBlocks codec returnBlock returnReceipt count a none := by
  intro mem
  rcases Nat.eq_zero_or_pos last with rfl | positive
  · have missing := rooted.genesis linked stored found
    cases collected : store.fillBlocks codec returnBlock returnReceipt count a none with
    | nil => rw [collected] at mem; contradiction
    | cons first rest =>
      obtain ⟨_, _, -, -, kept, -⟩ := fillBlocks_eq_cons collected
      rw [missing] at kept
      contradiction
  · obtain ⟨a', above, found', kept, height⟩ := linked.stored_ancestor stored
      (show record.blockHeight.toNat - last < record.blockHeight.toNat by omega)
    obtain rfl := some.inj (found.symm.trans found')
    have lower := linked.blockHeight_le_of_mem_fillBlocks kept mem
    rw [high] at lower
    omega

/-- The requested items of a range that ends above the head include the head. -/
theorem mem_requestedItems (stored : store.record? codec req.headBlockId = some record)
    (below : req.ancestorStartHeight.toNat ≤ record.blockHeight.toNat)
    (above : record.blockHeight.toNat ≤ req.lastHeight) :
    some (record.item req.returnBlock req.returnReceipt) ∈
      store.requestedItems codec req record.blockHeight.toNat := by
  refine mem_map.mpr ⟨record.blockHeight.toNat, mem_range'_1.mpr (by omega), ?_⟩
  rw [Nat.sub_self, ancestorItem, ancestor, bind_some, stored, map_some]

end Range

section Sample

/-- The blocks of the sample come after their parents. -/
theorem reachable_sample : (machine sampleCodec).Reachable (fun store call => call.Follows sampleCodec store)
    (runCalls sampleCodec sampleCalls) := by
  have empty : (machine sampleCodec).Reachable (fun store call => call.Follows sampleCodec store)
      (runCalls sampleCodec []) := .start fun _ => rfl
  have first : (machine sampleCodec).Reachable (fun store call => call.Follows sampleCodec store)
      (runCalls sampleCodec (sampleCalls.take 1)) := by
    refine .next empty (a := { req := { blockToAdd := some (sampleBlock 1 1 0) } }) ?_ rfl
    rintro _ ⟨⟩
    exact ⟨.inl (by decide), fun _ => rfl, fun _ => by rintro ⟨⟩, by decide⟩
  refine .next first (a := { req := { blockToAdd := some (sampleBlock 2 2 1) } }) ?_ rfl
  rintro _ ⟨⟩
  refine ⟨.inr ⟨_, rfl, by decide⟩, fun bottom => absurd bottom (by decide), fun id named => ?_, by decide⟩
  have bytes : (runCalls sampleCodec (sampleCalls.take 1)).getRecordBytes id =
      if id = [1] then _ else (runCalls sampleCodec []).getRecordBytes id := getRecordBytes_of_update rfl id
  by_cases first : id = [1]
  · rw [first] at named
    exact absurd named (by decide)
  · rw [if_neg first] at bytes
    rw [parentId, record?, bytes] at named
    contradiction

end Sample

end Teleno.BlockStore
