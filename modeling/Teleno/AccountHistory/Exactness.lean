import Teleno.Library.KeyOrder
import Teleno.AccountHistory.Records

/-! # What a query returns

As long as no key of another address and no counter starts with the queried address, and no record takes the place of
its counter, the keys that start with it are its own records, in the order in which their blocks were accepted.
-/

namespace Teleno.AccountHistory

open Library KeyOrder List UInt64
open Mempool (readBigEndian_bigEndian length_bigEndian compare_bigEndian)

/-- The block has the address as signer, payer, payee, or called or uploaded contract. -/
def Block.Involves (block : Block) (address : Bytes) : Prop :=
  block.signer = address ∨ ∃ tx ∈ block.transactions,
    (∃ header ∈ tx.header, header.payer = address ∨ header.payee = address) ∨
    .callContract address ∈ tx.operations ∨ .uploadContract address ∈ tx.operations

instance (block : Block) (address : Bytes) : Decidable (block.Involves address) :=
  inferInstanceAs (Decidable (_ ∨ _))

/-- The accepted blocks that involve an address, in the order of acceptance. -/
def involving (history : List BlockAccepted) (address : Bytes) : List Block :=
  (history.filterMap BlockAccepted.block).filter (·.Involves address)

/-- Entry `k` names block `k`. -/
def numbered (blocks : List Block) : List Entry :=
  blocks.mapIdx fun k block => { seqNum := UInt64.ofNat k, height := block.height, previous := block.id }

section Addresses

theorem Transaction.mem_addresses {tx : Transaction} {address : Bytes} (nonempty : address ≠ []) :
    address ∈ tx.addresses ↔ (∃ header ∈ tx.header, header.payer = address ∨ header.payee = address) ∨
      .callContract address ∈ tx.operations ∨ .uploadContract address ∈ tx.operations := by
  have operations : address ∈ tx.operations.map Operation.contract ↔
      .callContract address ∈ tx.operations ∨ .uploadContract address ∈ tx.operations := by
    rw [mem_map]
    constructor
    · rintro ⟨operation, mem, rfl⟩
      cases operation with
      | callContract contractId => exact .inl mem
      | uploadContract contractId => exact .inr mem
      | other => exact absurd rfl nonempty
    · rintro (mem | mem)
      · exact ⟨_, mem, rfl⟩
      · exact ⟨_, mem, rfl⟩
  rw [Transaction.addresses, mem_append, operations]
  cases tx.header with
  | none => simp
  | some header => simp [eq_comm]

theorem Block.mem_addresses {block : Block} {address : Bytes} :
    address ∈ block.addresses ↔ address ≠ [] ∧ block.Involves address := by
  rw [Block.addresses, Std.ExtTreeSet.mem_toList, mem_foldl_insert, mem_filter, decide_eq_true_iff, and_comm,
    Block.Involves]
  constructor
  · rintro (absent | ⟨nonempty, mem⟩)
    · exact absurd absent Std.ExtTreeSet.not_mem_empty
    · refine ⟨nonempty, ?_⟩
      rcases mem_cons.mp mem with rfl | mem
      · exact .inl rfl
      · obtain ⟨tx, listed, mem⟩ := mem_flatMap.mp mem
        exact .inr ⟨tx, listed, (Transaction.mem_addresses nonempty).mp mem⟩
  · rintro ⟨nonempty, rfl | ⟨tx, listed, involves⟩⟩
    · exact .inr ⟨nonempty, mem_cons_self⟩
    · have mem := mem_flatMap.mpr ⟨tx, listed, (Transaction.mem_addresses nonempty).mpr involves⟩
      exact .inr ⟨nonempty, mem_cons_of_mem _ mem⟩

theorem Block.addresses_nodup (block : Block) : block.addresses.Nodup := by
  refine Std.ExtTreeSet.distinct_toList.imp ?_
  rintro _ _ differ rfl
  exact differ Std.ReflCmp.compare_self

end Addresses

variable {address : Bytes} {codec : RecordCodec} {blocks : List Block} {store : Store}

section Keys

theorem length_encodeSeq (seq : UInt64) : (encodeSeq seq).length = 8 := length_bigEndian 8 _

theorem decodeSeq_append (seq : UInt64) (rest : Bytes) : decodeSeq (encodeSeq seq ++ rest) = seq := by
  have long : ¬ (encodeSeq seq ++ rest).length < 8 := by
    rw [length_append, length_encodeSeq]
    omega
  have fits : seq.toNat % 256 ^ 8 = seq.toNat := Nat.mod_eq_of_lt seq.toNat_lt
  rw [decodeSeq, if_neg long, take_left' (length_encodeSeq seq), encodeSeq, readBigEndian_bigEndian, fits,
    UInt64.ofNat_toNat]

theorem decodeSeq_encodeSeq (seq : UInt64) : decodeSeq (encodeSeq seq) = seq := by
  have plain := decodeSeq_append seq []
  rwa [append_nil] at plain

theorem compare_recordKey {seq seq' : UInt64} (less : seq < seq') :
    compare (recordKey address seq) (recordKey address seq') = .lt := by
  rw [recordKey, recordKey, compare_append]
  exact compare_bigEndian (lt_iff_toNat_lt.mp less) seq'.toNat_lt

theorem recordKey_le_iff {seq seq' : UInt64} :
    (compare (recordKey address seq) (recordKey address seq')).isLE ↔ seq ≤ seq' := by
  constructor
  · intro le
    by_contra greater
    exact Std.OrientedCmp.not_isLE_of_lt (compare_recordKey (UInt64.not_le.mp greater)) le
  · intro le
    rcases UInt64.lt_or_eq_of_le le with less | rfl
    · rw [compare_recordKey less]
      rfl
    · exact Std.ReflCmp.isLE_rfl

theorem extends_recordKey (address : Bytes) (seq : UInt64) : Extends address (recordKey address seq) := by
  refine ⟨?_, prefix_append _ _⟩
  rw [recordKey, length_append, length_encodeSeq]
  omega

/-- The keys that extend an address lie together. -/
theorem Extends.between {lower upper key : Bytes} (extendsLower : Extends address lower)
    (extendsUpper : Extends address upper) (above : (compare lower key).isLE) (below : (compare key upper).isLE) :
    Extends address key := by
  have starts := start_of_between extendsLower.2 extendsUpper.2 above below
  refine ⟨?_, starts⟩
  by_contra short
  obtain rfl : address = key := starts.eq_of_length_le (Nat.le_of_not_lt short)
  obtain ⟨longer, rest, rfl⟩ := extendsLower
  have shorter : compare (address ++ []) (address ++ rest) = .lt := by
    rcases rest with _ | ⟨c, rest⟩
    · rw [append_nil] at longer
      exact absurd longer (Nat.lt_irrefl _)
    · rw [compare_append, List.compare_eq_compareLex]
      exact List.compareLex_nil_cons
  rw [append_nil] at shorter
  exact Std.OrientedCmp.not_isLE_of_lt shorter above

end Keys

/-- The keys of another address stay away from the keys of this one: its records and its counter do not extend the
address, and its records do not take the place of the address's counter. -/
structure Apart (address other : Bytes) : Prop where
  records : other ≠ address → ∀ seq, ¬ Extends address (recordKey other seq)
  counter : ¬ Extends address (metaKey other)
  overwrite : ∀ seq, recordKey other seq ≠ metaKey address

/-- The store holds exactly these blocks for an address. -/
structure Indexed (codec : RecordCodec) (address : Bytes) (blocks : List Block) (store : Store) : Prop where
  counter : store.sequence address = UInt64.ofNat blocks.length
  records : ∀ key value, Extends address key → (store[key]? = some value ↔
    ∃ entry ∈ numbered blocks, key = recordKey address entry.seqNum ∧ value = codec.serialize entry)

section Steps

variable {other : Bytes}

theorem indexed_empty (codec : RecordCodec) (address : Bytes) : Indexed codec address [] ∅ where
  counter := by
    rw [Store.sequence, Std.ExtTreeMap.getElem?_empty]
    rfl
  records key value _ := by
    rw [Std.ExtTreeMap.getElem?_empty]
    simp [numbered]

theorem numbered_concat (blocks : List Block) (block : Block) : numbered (blocks ++ [block]) =
    numbered blocks ++ [{ seqNum := ofNat blocks.length, height := block.height, previous := block.id }] := by
  rw [numbered, mapIdx_concat]
  rfl

/-- A write under a key that neither extends the address nor is its counter's changes nothing. -/
theorem Indexed.insert_other (indexed : Indexed codec address blocks store) {key : Bytes} (value : Bytes)
    (outside : ¬ Extends address key) (elsewhere : key ≠ metaKey address) :
    Indexed codec address blocks (store.insert key value) where
  counter := by
    rw [Store.sequence, Std.ExtTreeMap.getElem?_insert, if_neg (by simpa using elsewhere)]
    exact indexed.counter
  records found value' extended := by
    have differ : key ≠ found := by
      rintro rfl
      exact outside extended
    rw [Std.ExtTreeMap.getElem?_insert, if_neg (by simpa using differ)]
    exact indexed.records found value' extended

theorem metaKey_injective : Function.Injective metaKey := fun _ _ same => append_cancel_left same

/-- The records of another address. -/
theorem Indexed.record_other (indexed : Indexed codec address blocks store) (apart : Apart address other)
    (differ : other ≠ address) (block : Block) : Indexed codec address blocks
      (storeRecord codec other (nextSequence other store).1 block.id block.height (nextSequence other store).2) := by
  have counted : Indexed codec address blocks (nextSequence other store).2 :=
    indexed.insert_other _ apart.counter fun same => differ (metaKey_injective same)
  exact counted.insert_other _ (apart.records differ _) (apart.overwrite _)

theorem toNat_seqNum {n : ℕ} (fits : n < 2 ^ 64) : (ofNat n).toNat = n := Nat.mod_eq_of_lt fits

theorem seqNum_ne (few : blocks.length < 2 ^ 64) {entry : Entry} (mem : entry ∈ numbered blocks) :
    entry.seqNum ≠ ofNat blocks.length := by
  obtain ⟨k, bound, rfl⟩ := mem_mapIdx.mp mem
  intro same
  have numbers := congrArg toNat same
  rw [toNat_seqNum few, toNat_seqNum (by omega)] at numbers
  omega

theorem recordKey_injective (address : Bytes) : Function.Injective (recordKey address) := by
  intro seq seq' same
  rw [← decodeSeq_encodeSeq seq, append_cancel_left same, decodeSeq_encodeSeq]

/-- The record of the address itself. -/
theorem Indexed.record_self (indexed : Indexed codec address blocks store) (apart : Apart address address)
    (few : blocks.length < 2 ^ 64) (block : Block) : Indexed codec address (blocks ++ [block])
      (storeRecord codec address (nextSequence address store).1 block.id block.height
        (nextSequence address store).2) where
  counter := by
    rw [storeRecord, Store.sequence, Std.ExtTreeMap.getElem?_insert, if_neg (by simpa using apart.overwrite _),
      nextSequence, Std.ExtTreeMap.getElem?_insert_self, indexed.counter]
    simp only [length_encodeSeq, decodeSeq_encodeSeq, if_true, length_append, length_singleton]
    exact (ofNat_add _ _).symm
  records key value extended := by
    have notCounter : metaKey address ≠ key := by
      rintro rfl
      exact apart.counter extended
    rw [storeRecord, nextSequence, indexed.counter, Std.ExtTreeMap.getElem?_insert, Std.ExtTreeMap.getElem?_insert,
      if_neg (show ¬ compare (metaKey address) key = .eq by simpa using notCounter), numbered_concat]
    by_cases new : recordKey address (ofNat blocks.length) = key
    · rw [if_pos (by simpa using new), Option.some_inj]
      constructor
      · rintro rfl
        exact ⟨_, mem_append_right _ (mem_singleton.mpr rfl), new.symm, rfl⟩
      · rintro ⟨entry, mem, rfl, rfl⟩
        rcases mem_append.mp mem with old | last
        · exact absurd (recordKey_injective address new).symm (seqNum_ne few old)
        · rw [mem_singleton.mp last]
    · rw [if_neg (by simpa using new), indexed.records key value extended]
      constructor
      · rintro ⟨entry, mem, same⟩
        exact ⟨entry, mem_append_left _ mem, same⟩
      · rintro ⟨entry, mem, rfl, rfl⟩
        rcases mem_append.mp mem with old | last
        · exact ⟨entry, old, rfl, rfl⟩
        · rw [mem_singleton.mp last] at new
          exact absurd rfl new

/-- The loop over the addresses of one block. -/
theorem Indexed.storeRecords (indexed : Indexed codec address blocks store) (few : blocks.length < 2 ^ 64)
    (block : Block) {addresses : List Bytes} (apart : ∀ other ∈ addresses, Apart address other)
    (nodup : addresses.Nodup) : Indexed codec address (blocks ++ if address ∈ addresses then [block] else [])
      (storeRecords codec block addresses store) := by
  have keep {store : Store} {blocks : List Block} (indexed : Indexed codec address blocks store)
      {addresses : List Bytes} (apart : ∀ other ∈ addresses, Apart address other) (absent : address ∉ addresses) :
      Indexed codec address blocks (AccountHistory.storeRecords codec block addresses store) := by
    induction addresses generalizing store with
    | nil => exact indexed
    | cons other rest ih =>
      obtain ⟨differ, absent⟩ := not_or.mp (mem_cons.not.mp absent)
      obtain ⟨first, apart⟩ := forall_mem_cons.mp apart
      exact ih (indexed.record_other first (Ne.symm differ) block) apart absent
  induction addresses generalizing store with
  | nil =>
    rw [if_neg not_mem_nil, append_nil]
    exact indexed
  | cons other rest ih =>
    obtain ⟨first, apart⟩ := forall_mem_cons.mp apart
    obtain ⟨absent, nodup⟩ := nodup_cons.mp nodup
    by_cases self : other = address
    · subst self
      rw [if_pos mem_cons_self]
      exact keep (indexed.record_self first few block) apart absent
    · have same : address ∈ other :: rest ↔ address ∈ rest := by
        rw [mem_cons, or_iff_right (Ne.symm self)]
      simp only [same]
      exact ih (indexed.record_other first self block) apart nodup

/-- Every address of every block stays apart from this one. -/
def AllApart (address : Bytes) (history : List BlockAccepted) : Prop :=
  ∀ ba ∈ history, ∀ block ∈ ba.block, ∀ other ∈ block.addresses, Apart address other

theorem involving_concat (history : List BlockAccepted) (ba : BlockAccepted) : involving (history ++ [ba]) address =
    involving history address ++ involving [ba] address := by
  rw [involving, filterMap_append, filter_append]
  rfl

theorem indexed_index (codec : RecordCodec) (nonempty : address ≠ []) {history : List BlockAccepted}
    (apart : AllApart address history) (few : (involving history address).length < 2 ^ 64) :
    Indexed codec address (involving history address) (index codec history) := by
  induction history using reverseRecOn with
  | nil => exact indexed_empty codec address
  | append_singleton history ba ih =>
    rw [involving_concat, length_append] at few
    rw [involving_concat, index, foldl_append]
    have before := ih (fun earlier mem => apart earlier (mem_append_left _ mem)) (by omega)
    have last := apart ba (mem_append_right _ (mem_singleton.mpr rfl))
    obtain ⟨block⟩ := ba
    cases block with
    | none =>
      have same : involving history address ++ involving [⟨none⟩] address = involving history address :=
        append_nil _
      rw [same]
      exact before
    | some block =>
      have added : involving [⟨some block⟩] address = if address ∈ block.addresses then [block] else [] := by
        have involves : address ∈ block.addresses ↔ block.Involves address := by
          rw [Block.mem_addresses, and_iff_right nonempty]
        simp [involving, filter_singleton, involves, Bool.cond_decide]
      rw [added]
      exact before.storeRecords (by omega) block (last block rfl) block.addresses_nodup

end Steps

section Query

theorem collect_eq (codec : RecordCodec) (address : Bytes) (count : ℕ) (list : List (Bytes × Bytes)) :
    collect codec address count list =
      ((list.takeWhile fun entry => decide (Extends address entry.1)).take count).filterMap (codec.parse ·.2) := by
  induction list generalizing count with
  | nil => cases count <;> rfl
  | cons entry rest ih =>
    cases count with
    | zero => rfl
    | succ count =>
      rw [collect]
      by_cases extended : Extends address entry.1
      · have kept := takeWhile_cons_of_pos (l := rest) (a := entry)
          (p := fun entry => decide (Extends address entry.1)) (decide_eq_true extended)
        rw [if_pos extended, kept, take_succ_cons, filterMap_cons, ih]
        cases codec.parse entry.2 <;> rfl
      · rw [if_neg extended, takeWhile_cons, decide_eq_false extended]
        rfl

/-- The entries of the store for these records. -/
def stored (codec : RecordCodec) (address : Bytes) (entries : List Entry) : List (Bytes × Bytes) :=
  entries.map fun entry => (recordKey address entry.seqNum, codec.serialize entry)

theorem numbered_sorted (few : blocks.length < 2 ^ 64) :
    (numbered blocks).Pairwise fun entry later => entry.seqNum < later.seqNum := by
  rw [numbered, pairwise_iff_getElem]
  intro i j hi hj less
  rw [length_mapIdx] at hi hj
  rw [getElem_mapIdx, getElem_mapIdx, lt_iff_toNat_lt, toNat_seqNum (by omega),
    toNat_seqNum (by omega)]
  exact less

theorem seqNum_numbered (few : blocks.length < 2 ^ 64) {i : ℕ} (bound : i < (numbered blocks).length) :
    (numbered blocks)[i].seqNum.toNat = i := by
  rw [numbered, length_mapIdx] at bound
  simp only [numbered, getElem_mapIdx]
  exact toNat_seqNum (by omega)

theorem numbered_drop (few : blocks.length < 2 ^ 64) (seq : UInt64) :
    ((numbered blocks).filter fun entry => decide (seq ≤ entry.seqNum)) = (numbered blocks).drop seq.toNat := by
  refine filter_eq_drop fun i bound => ?_
  rw [decide_eq_true_iff, le_iff_toNat_le, seqNum_numbered few]

theorem numbered_take (few : blocks.length < 2 ^ 64) (seq : UInt64) :
    ((numbered blocks).filter fun entry => decide (entry.seqNum ≤ seq)) = (numbered blocks).take (seq.toNat + 1) := by
  refine filter_eq_take fun i bound => ?_
  rw [decide_eq_true_iff, le_iff_toNat_le, seqNum_numbered few, Nat.lt_succ_iff]

theorem take_stored (entries : List Entry) (count : ℕ) :
    ((stored codec address entries).take count).filterMap (codec.parse ·.2) = entries.take count := by
  rw [stored, ← map_take]
  rw [filterMap_map]
  simp [codec.parse_serialize]

theorem isLE_recordKey (seq seq' : UInt64) :
    (compare (recordKey address seq) (recordKey address seq')).isLE = decide (seq ≤ seq') := by
  rw [Bool.eq_iff_iff, recordKey_le_iff, decide_eq_true_iff]

section

variable (indexed : Indexed codec address blocks store) (few : blocks.length < 2 ^ 64)

include indexed few

/-- The part of the store whose keys extend the address. -/
theorem Indexed.own_entries :
    (store.toList.filter fun entry => decide (Extends address entry.1)) = stored codec address (numbered blocks) := by
  refine filter_toList_eq (p := fun key => decide (Extends address key)) ?_ ?_
  · exact pairwise_map.mpr ((numbered_sorted few).imp compare_recordKey)
  · rintro ⟨key, value⟩
    rw [decide_eq_true_iff, stored, mem_map]
    constructor
    · rintro ⟨entry, mem, same⟩
      obtain ⟨rfl, rfl⟩ := Prod.mk.inj same
      have extended := extends_recordKey address entry.seqNum
      exact ⟨(indexed.records _ _ extended).mpr ⟨entry, mem, rfl, rfl⟩, extended⟩
    · rintro ⟨found, extended⟩
      obtain ⟨entry, mem, rfl, rfl⟩ := (indexed.records key value extended).mp found
      exact ⟨entry, mem, rfl⟩

/-- The entries with the address's keys among those that pass a test on the keys. -/
theorem Indexed.filter_own (test : Bytes → Bool) :
    ((store.toList.filter fun entry => test entry.1).filter fun entry => decide (Extends address entry.1)) =
      stored codec address ((numbered blocks).filter fun entry => test (recordKey address entry.seqNum)) := by
  rw [filter_comm, indexed.own_entries few, stored, filter_map]
  rfl

/-- A forward scan from one of the address's keys. -/
theorem Indexed.collect_seek (seq : UInt64) (count : ℕ) :
    collect codec address count (store.seek (recordKey address seq)) =
      ((numbered blocks).drop seq.toNat).take count := by
  have closed : (store.seek (recordKey address seq)).Pairwise fun entry later =>
      decide (Extends address later.1) → decide (Extends address entry.1) := by
    rw [Store.seek, pairwise_filter]
    refine store.ordered_keys_toList.imp fun {entry later} less above _ extended => decide_eq_true ?_
    have below : (compare entry.1 later.1).isLE := by
      rw [less]
      rfl
    exact (extends_recordKey address seq).between (of_decide_eq_true extended) above below
  rw [collect_eq, takeWhile_eq_filter closed, Store.seek,
    indexed.filter_own few fun key => (compare (recordKey address seq) key).isLE]
  simp only [isLE_recordKey]
  rw [numbered_drop few, take_stored]

/-- A backward scan from one of the address's keys. -/
theorem Indexed.collect_seekForPrev (seq : UInt64) (count : ℕ) :
    collect codec address count (store.seekForPrev (recordKey address seq)) =
      ((numbered blocks).take (seq.toNat + 1)).reverse.take count := by
  have closed : (store.seekForPrev (recordKey address seq)).Pairwise fun entry later =>
      decide (Extends address later.1) → decide (Extends address entry.1) := by
    rw [Store.seekForPrev, pairwise_reverse, pairwise_filter]
    refine store.ordered_keys_toList.imp fun {later entry} less _ below extended => decide_eq_true ?_
    have above : (compare later.1 entry.1).isLE := by
      rw [less]
      rfl
    exact (of_decide_eq_true extended).between (extends_recordKey address seq) above below
  rw [collect_eq, takeWhile_eq_filter closed, Store.seekForPrev, filter_reverse,
    indexed.filter_own few fun key => (compare key (recordKey address seq)).isLE]
  simp only [isLE_recordKey]
  rw [numbered_take few, stored, ← map_reverse]
  exact take_stored _ _

end

end Query

/-- The page size that a limit asks for: at most 500, and 500 if there is none. -/
def clamped (limit : ℕ) : ℕ := if limit = 0 then maxRecordsPerQuery else min limit maxRecordsPerQuery

/-- A query in either direction returns the records of the address and nothing else. -/
structure Exact (codec : RecordCodec) (history : List BlockAccepted) (address : Bytes) (seq : UInt64) (limit : ℕ) :
    Prop where
  ascending : getAccountHistory codec (index codec history)
      { address := address, seqNum := seq, limit := limit, ascending := true } =
    ((numbered (involving history address)).drop seq.toNat).take (clamped limit)
  descending : 1 ≤ seq → getAccountHistory codec (index codec history)
      { address := address, seqNum := seq, limit := limit, ascending := false } =
    ((numbered (involving history address)).take (seq.toNat + 1)).reverse.take (clamped limit)

theorem pageSize_eq {req : Request} (fits : req.limit < 2 ^ 32) : req.pageSize = clamped req.limit := by
  rw [Request.pageSize, clamped, Nat.mod_eq_of_lt fits]
  split_ifs
  · omega
  · rfl
  · rfl
  · omega

/-- The history of an address is exact as long as the keys of the others stay apart from its own. -/
theorem history_exact (codec : RecordCodec) (history : List BlockAccepted) (address : Bytes) (nonempty : address ≠ [])
    (apart : AllApart address history) (few : (involving history address).length < 2 ^ 64) (seq : UInt64)
    (limit : ℕ) (fits : limit < 2 ^ 32) : Exact codec history address seq limit := by
  have indexed := indexed_index codec nonempty apart few
  constructor
  · rw [getAccountHistory, if_neg nonempty, if_pos (.inl rfl), pageSize_eq fits]
    exact indexed.collect_seek few seq _
  · intro positive
    have backward : ¬ ((false : Bool) = true ∨ seq = 0) := by
      rintro (ascending | rfl)
      · contradiction
      · exact absurd positive (by decide)
    rw [getAccountHistory, if_neg nonempty, if_neg backward, pageSize_eq fits]
    exact indexed.collect_seekForPrev few seq _

/-- Two addresses of one length stay apart unless one looks like the start of a counter's key. -/
theorem apart_of_length {address other : Bytes} (length : address.length = other.length)
    (plain : ¬ address <+: metaKey other) : Apart address other where
  records differ seq extended := by
    have starts : address <+: other := by
      refine prefix_of_prefix_length_le extended.2 (prefix_append other _) length.le
    exact differ (starts.eq_of_length length).symm
  counter extended := plain extended.2
  overwrite seq same := by
    have lengths := congrArg List.length same
    simp only [recordKey, metaKey, length_append, length_encodeSeq, length_cons, length_nil] at lengths
    omega

/-- An encoding of records as two numbers and the id. -/
def plainCodec : RecordCodec where
  serialize entry := encodeSeq entry.seqNum ++ (encodeSeq entry.height ++ entry.previous)
  parse raw := some { seqNum := decodeSeq raw, height := decodeSeq (raw.drop 8), previous := raw.drop 16 }
  parse_serialize entry := by
    have later : (encodeSeq entry.seqNum ++ (encodeSeq entry.height ++ entry.previous)).drop 16 = entry.previous := by
      rw [← List.append_assoc]
      exact List.drop_left' (by rw [List.length_append, length_encodeSeq, length_encodeSeq])
    rw [later, List.drop_left' (length_encodeSeq _), decodeSeq_append, decodeSeq_append]

/-- A block with a signer of one byte and a payer. -/
def sampleBlock (payer : Bytes) : BlockAccepted :=
  { block := some { id := [7], height := 1, signer := [1], transactions := [{ header := some { payer := payer } }] } }

/-- Three blocks, of which two have the payer `[2]`. -/
def sampleHistory : List BlockAccepted := [sampleBlock [2], sampleBlock [3], sampleBlock [2]]

theorem history_exact_sample : (involving sampleHistory [2]).length = 2 ∧ Exact plainCodec sampleHistory [2] 1 10 := by
  have apart : ∀ ba ∈ sampleHistory, ∀ block ∈ ba.block, ∀ other ∈ block.addresses,
      [2].length = other.length ∧ ¬ [2] <+: metaKey other := by
    decide
  refine ⟨by decide, history_exact plainCodec _ [2] (by decide) ?_ (by decide) 1 10 (by decide)⟩
  intro ba mem block isBlock other impacted
  obtain ⟨length, plain⟩ := apart ba mem block isBlock other impacted
  exact apart_of_length length plain

/-- The payer's address extends the signer's, so the payer's record is returned as one of the signer's. -/
theorem extending_address_inexact : (involving [sampleBlock [1, 0]] [1]).length = 1 ∧
    getAccountHistory plainCodec (index plainCodec [sampleBlock [1, 0]])
      { address := [1], seqNum := 0, limit := 10, ascending := true } =
      [{ seqNum := 0, height := 1, previous := [7] }, { seqNum := 0, height := 1, previous := [7] }] ∧
    ¬ Exact plainCodec [sampleBlock [1, 0]] [1] 0 10 := by
  refine ⟨by decide, by decide +kernel, fun isExact => ?_⟩
  have ascending := isExact.ascending
  revert ascending
  decide +kernel

end Teleno.AccountHistory
