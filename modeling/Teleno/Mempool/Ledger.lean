import Teleno.Mempool.Node

/-! # The ledger a node keeps

The five object spaces of a node are one ledger of pending records seen from five sides. `Ledger`
says so for a view and a list of entries; adding a record and dropping one keep it.
-/

namespace Teleno.Mempool

open StateDb Space View List Option

/-- A pending record and the sequence number it is stored under. -/
structure Entry where
  seq : UInt64
  record : PendingTransactionRecord
deriving DecidableEq

namespace Entry

abbrev id (entry : Entry) : Bytes := entry.record.transaction.id
abbrev payer (entry : Entry) : Bytes := entry.record.transaction.payer
abbrev rcLimit (entry : Entry) : ℕ := entry.record.transaction.rcLimit.toNat
abbrev nonceKey (codec : Codec) (entry : Entry) : Option Bytes :=
  createAccountNonceKey codec entry.record.transaction

end Entry

/-- The RC that the records of a payer reserve. -/
def reserved (payer : Bytes) : List Entry → ℕ
  | [] => 0
  | entry :: rest => (if entry.payer = payer then entry.rcLimit else 0) + reserved payer rest

variable {entries : List Entry}

theorem reserved_erase {entry : Entry} (mem : entry ∈ entries) (payer : Bytes) :
    reserved payer entries = (if entry.payer = payer then entry.rcLimit else 0) +
      reserved payer (entries.erase entry) := by
  induction entries with
  | nil => contradiction
  | cons first rest ih =>
    rcases eq_or_ne first entry with rfl | other
    · rw [erase_cons_head, reserved]
    · have inside := (mem_cons.mp mem).resolve_left other.symm
      rw [erase_cons_tail (by simpa using other), reserved, reserved, ih inside]
      omega

/-- RC limits are positive, so only payers without records have nothing reserved. -/
theorem reserved_eq_zero_iff (priced : ∀ entry ∈ entries, 0 < entry.rcLimit)
    (payer : Bytes) : reserved payer entries = 0 ↔ ∀ entry ∈ entries, entry.payer ≠ payer := by
  induction entries with
  | nil => exact iff_of_true rfl (fun entry mem => by contradiction)
  | cons first rest ih =>
    have positive := priced first mem_cons_self
    rw [reserved, Nat.add_eq_zero_iff, ih (fun entry mem => priced entry (mem_cons_of_mem _ mem)),
      forall_mem_cons]
    split_ifs with same
    · exact iff_of_false (by omega) (fun both => both.1 same)
    · exact ⟨fun both => ⟨same, both.2⟩, fun both => ⟨rfl, both.2⟩⟩

section

variable (codec : Codec)

/-- The objects a view shows are those of a list of pending records. -/
structure Ledger (view : View) (entries : List Entry) : Prop where
  /-- The records, under their sequence numbers. -/
  pending : ∀ seq value, object codec.keys view pendingTransaction seq = some value ↔
    ∃ entry ∈ entries, uint64Bytes entry.seq = seq ∧ codec.record entry.record = value
  /-- Their sequence numbers, under their ids. -/
  index : ∀ id value, object codec.keys view transactionIndex id = some value ↔
    ∃ entry ∈ entries, entry.id = id ∧ uint64Bytes entry.seq = value
  /-- The nonces in use. -/
  nonces : ∀ key, (object codec.keys view accountNonce key).isSome ↔
    ∃ entry ∈ entries, entry.nonceKey codec = some key
  /-- The next sequence number is above all of them. -/
  metadata : ∀ value, object codec.keys view mempoolMetadata [] = some value →
    ∃ seqNum, value = codec.metadata ⟨seqNum⟩ ∧ ∀ entry ∈ entries, entry.seq < seqNum
  counted : entries ≠ [] → (object codec.keys view mempoolMetadata []).isSome
  /-- A resource record reserves what the payer's records may use. -/
  resources : ∀ payer value, object codec.keys view addressResources payer = some value →
    ∃ arr : AddressResourceRecord, value = codec.resources arr ∧ arr.currentRc ≤ arr.maxRc ∧
      arr.maxRc.toNat - arr.currentRc.toNat = reserved payer entries
  payers : ∀ payer, (object codec.keys view addressResources payer).isSome ↔
    ∃ entry ∈ entries, entry.payer = payer
  seqs_nodup : (entries.map Entry.seq).Nodup
  nonces_nodup : (entries.map (Entry.nonceKey codec)).Nodup
  nonceful : ∀ entry ∈ entries, (entry.nonceKey codec).isSome
  priced : ∀ entry ∈ entries, 0 < entry.rcLimit
  /-- Nothing but serialized keys is stored. -/
  named : ∀ key, (view key).isSome → ∃ dbKey, codec.keys.serialize dbKey = key

/-- The writes of one more record. -/
def added (view : View) (entry : Entry) (nonceKey : Bytes) (arr : AddressResourceRecord) : View :=
  let view := write codec.keys view mempoolMetadata [] (some (codec.metadata ⟨entry.seq + 1⟩))
  let view := write codec.keys view pendingTransaction (uint64Bytes entry.seq)
    (some (codec.record entry.record))
  let view := write codec.keys view transactionIndex entry.id (some (uint64Bytes entry.seq))
  let view := write codec.keys view addressResources entry.payer (some (codec.resources arr))
  write codec.keys view accountNonce nonceKey (some [])

/-- What is left of a resource record when a record is dropped. -/
def released (arr : AddressResourceRecord) (rcLimit : UInt64) : Option AddressResourceRecord :=
  if arr.maxRc ≤ arr.currentRc + rcLimit then none else some { arr with currentRc := arr.currentRc + rcLimit }

/-- The writes that drop a record. -/
def dropped (view : View) (entry : Entry) (nonceKey : Bytes) (arr : AddressResourceRecord) : View :=
  let view := write codec.keys view addressResources entry.payer
    ((released arr entry.record.transaction.rcLimit).map codec.resources)
  let view := write codec.keys view pendingTransaction (uint64Bytes entry.seq) none
  let view := write codec.keys view transactionIndex entry.id none
  write codec.keys view accountNonce nonceKey none

end

attribute [local simp] added dropped object_write mempoolMetadata pendingTransaction transactionIndex addressResources
  accountNonce

section Objects

variable {codec : Codec} (view : View) (entry : Entry) (nonceKey : Bytes) (arr : AddressResourceRecord)
  (key : Bytes)

theorem resources_added :
    object codec.keys (added codec view entry nonceKey arr) addressResources key =
      if key = entry.payer then some (codec.resources arr) else
        object codec.keys view addressResources key := by
  simp

theorem metadata_dropped :
    object codec.keys (dropped codec view entry nonceKey arr) mempoolMetadata key =
      object codec.keys view mempoolMetadata key := by
  simp

theorem resources_dropped :
    object codec.keys (dropped codec view entry nonceKey arr) addressResources key =
      if key = entry.payer then (released arr entry.record.transaction.rcLimit).map codec.resources else
        object codec.keys view addressResources key := by
  simp

end Objects

/-- Writing under a serialized key keeps every stored key serialized. -/
theorem named_write {codec : KeyCodec} {view : View}
    (named : ∀ key, (view key).isSome → ∃ dbKey, codec.serialize dbKey = key)
    (space : ObjectSpace) (name : Bytes) (value : Option Bytes) (key : Bytes)
    (stored : (write codec view space name value key).isSome) : ∃ dbKey, codec.serialize dbKey = key := by
  rw [write, Function.update_apply] at stored
  split_ifs at stored with same
  · exact ⟨⟨space, name⟩, same.symm⟩
  · exact named key stored

/-- Erasing an entry does not matter to what it does not satisfy. -/
theorem exists_mem_erase {entry : Entry} {holds : Entry → Prop} (fails : ¬ holds entry) :
    (∃ other ∈ entries.erase entry, holds other) ↔ ∃ other ∈ entries, holds other := by
  constructor
  · rintro ⟨other, inside, meets⟩
    exact ⟨other, mem_of_mem_erase inside, meets⟩
  · rintro ⟨other, inside, meets⟩
    refine ⟨other, (mem_erase_of_ne ?_).mpr inside, meets⟩
    rintro rfl
    exact fails meets

section Tables

variable {entry : Entry} {stored : Option Bytes} {key value : Bytes} {name row : Entry → Bytes} {holds : Entry → Prop}
  {here : Prop} [Decidable here]

/-- A table of the entries gets a row for one more. -/
theorem row_cons (new : ∀ other ∈ entries, name other ≠ name entry)
    (rows : stored = some value ↔ ∃ other ∈ entries, name other = key ∧ row other = value) :
    (if key = name entry then some (row entry) else stored) = some value ↔
      ∃ other ∈ entry :: entries, name other = key ∧ row other = value := by
  rw [exists_mem_cons_iff]
  split_ifs with same
  · subst same
    rw [some.injEq]
    constructor
    · exact fun written => .inl ⟨rfl, written⟩
    · rintro (⟨-, written⟩ | ⟨other, inside, same, -⟩)
      · exact written
      · exact absurd same (new other inside)
  · rw [rows]
    exact ⟨.inr, fun either => either.resolve_left fun both => same both.1.symm⟩

theorem row_erase (others : ∀ other ∈ entries.erase entry, name other ≠ name entry)
    (rows : stored = some value ↔ ∃ other ∈ entries, name other = key ∧ row other = value) :
    (if key = name entry then none else stored) = some value ↔
      ∃ other ∈ entries.erase entry, name other = key ∧ row other = value := by
  split_ifs with same
  · subst same
    refine iff_of_false id ?_
    rintro ⟨other, inside, same, -⟩
    exact others other inside same
  · rw [rows, exists_mem_erase fun both => same both.1.symm]

/-- A key is in use because of one more entry. -/
theorem isSome_cons (iff : here ↔ holds entry) (used : stored.isSome ↔ ∃ other ∈ entries, holds other) :
    (if here then some value else stored).isSome ↔ ∃ other ∈ entry :: entries, holds other := by
  rw [exists_mem_cons_iff, ← iff]
  split_ifs with same
  · exact iff_of_true rfl (.inl same)
  · rw [used]
    exact ⟨.inr, fun either => either.resolve_left same⟩

theorem isSome_erase {left : Option Bytes} (iff : here ↔ holds entry)
    (kept : holds entry → (left.isSome ↔ ∃ other ∈ entries.erase entry, holds other))
    (used : stored.isSome ↔ ∃ other ∈ entries, holds other) :
    (if here then left else stored).isSome ↔ ∃ other ∈ entries.erase entry, holds other := by
  split_ifs with same
  · exact kept (iff.mp same)
  · rw [used, exists_mem_erase fun meets => same (iff.mpr meets)]

end Tables

/-- Releasing does not overflow, and leaves a record as long as something stays reserved. -/
theorem released_cases {arr : AddressResourceRecord} {rcLimit : UInt64} {rest : ℕ} (bounded : arr.currentRc ≤ arr.maxRc)
    (reserves : arr.maxRc.toNat - arr.currentRc.toNat = rcLimit.toNat + rest) :
    released arr rcLimit = none ∧ rest = 0 ∨ ∃ arr', released arr rcLimit = some arr' ∧ rest ≠ 0 ∧
      arr'.currentRc ≤ arr'.maxRc ∧ arr'.maxRc.toNat - arr'.currentRc.toNat = rest := by
  rw [UInt64.le_iff_toNat_le] at bounded
  have bits := arr.maxRc.toNat_lt
  have sum : (arr.currentRc + rcLimit).toNat = arr.currentRc.toNat + rcLimit.toNat := by
    rw [UInt64.toNat_add, Nat.mod_eq_of_lt (by omega)]
  rw [released]
  split_ifs with covers
  · rw [UInt64.le_iff_toNat_le, sum] at covers
    exact .inl ⟨rfl, by omega⟩
  · rw [UInt64.le_iff_toNat_le, sum] at covers
    refine .inr ⟨_, rfl, by omega, ?_, ?_⟩ <;> dsimp only
    · rw [UInt64.le_iff_toNat_le, sum]
      omega
    · rw [sum]
      omega

namespace Ledger

variable {codec : Codec} {view : View} {entries : List Entry}

/-- A view without objects. -/
theorem nil (empty : ∀ key, view key = none) : Ledger codec view [] where
  pending seq value := by simp [object, empty]
  index id value := by simp [object, empty]
  nonces key := by simp [object, empty]
  metadata value stored := by simp [object, empty] at stored
  counted nonempty := absurd rfl nonempty
  resources payer value stored := by simp [object, empty] at stored
  payers payer := by simp [object, empty]
  seqs_nodup := nodup_nil
  nonces_nodup := nodup_nil
  nonceful := by simp
  priced := by simp
  named key stored := by simp [empty] at stored

variable {left right entry : Entry}

section

variable (ledger : Ledger codec view entries)

include ledger

/-- Entries are told apart by their sequence numbers. -/
theorem eq_of_seq (first : left ∈ entries) (second : right ∈ entries) (same : left.seq = right.seq) : left = right :=
  inj_on_of_nodup_map ledger.seqs_nodup first second same

theorem eq_of_id (first : left ∈ entries) (second : right ∈ entries) (same : left.id = right.id) : left = right := by
  have indexed := (ledger.index left.id _).mpr ⟨left, first, rfl, rfl⟩
  rw [(ledger.index left.id _).mpr ⟨right, second, same.symm, rfl⟩] at indexed
  exact ledger.eq_of_seq first second (uint64Bytes_injective (some.inj indexed)).symm

theorem index_eq_none_iff {id : Bytes} :
    object codec.keys view transactionIndex id = none ↔ ∀ entry ∈ entries, entry.id ≠ id := by
  rw [eq_none_iff_forall_ne_some]
  constructor
  · intro absent entry mem same
    exact absent _ ((ledger.index id _).mpr ⟨entry, mem, same, rfl⟩)
  · intro absent value indexed
    obtain ⟨entry, mem, same, -⟩ := (ledger.index id value).mp indexed
    exact absent entry mem same

/-- One more record. -/
theorem add (entry : Entry) {nonceKey : Bytes} {arr : AddressResourceRecord}
    (fresh : object codec.keys view transactionIndex entry.id = none) (key : entry.nonceKey codec = some nonceKey)
    (unused : object codec.keys view accountNonce nonceKey = none) (positive : 0 < entry.rcLimit)
    (above : ∀ other ∈ entries, other.seq < entry.seq) (room : entry.seq < entry.seq + 1)
    (bounded : arr.currentRc ≤ arr.maxRc)
    (reserves : arr.maxRc.toNat - arr.currentRc.toNat = entry.rcLimit + reserved entry.payer entries) :
    Ledger codec (added codec view entry nonceKey arr) (entry :: entries) := by
  have distinct : ∀ other ∈ entries, other.seq ≠ entry.seq := by
    intro other mem
    exact UInt64.ne_of_lt (above other mem)
  have newId := ledger.index_eq_none_iff.mp fresh
  have newNonce : ∀ other ∈ entries, other.nonceKey codec ≠ some nonceKey := by
    intro other mem same
    have used := (ledger.nonces nonceKey).mpr ⟨other, mem, same⟩
    rw [unused] at used
    contradiction
  constructor
  case pending =>
    intro seq value
    simpa using row_cons (fun other mem same => distinct other mem (uint64Bytes_injective same))
      (ledger.pending seq value)
  case index =>
    intro id value
    simpa using row_cons newId (ledger.index id value)
  case nonces =>
    intro name
    have named : name = nonceKey ↔ entry.nonceKey codec = some name := by rw [key, some.injEq, eq_comm]
    simpa using isSome_cons named (ledger.nonces name)
  case metadata =>
    intro value stored
    refine ⟨entry.seq + 1, by simpa using stored.symm, ?_⟩
    intro other mem
    rcases mem_cons.mp mem with rfl | inside
    · exact room
    · exact UInt64.lt_trans (above other inside) room
  case counted => simp
  case resources =>
    intro payer value stored
    rw [resources_added] at stored
    rw [reserved]
    split_ifs at stored with same
    · subst same
      rw [if_pos rfl]
      exact ⟨arr, (some.inj stored).symm, bounded, reserves⟩
    · rw [if_neg (Ne.symm same), Nat.zero_add]
      exact ledger.resources payer value stored
  case payers =>
    intro payer
    rw [resources_added]
    exact isSome_cons eq_comm (ledger.payers payer)
  case seqs_nodup =>
    rw [map_cons, nodup_cons]
    refine ⟨?_, ledger.seqs_nodup⟩
    intro mem
    obtain ⟨other, inside, same⟩ := mem_map.mp mem
    exact distinct other inside same
  case nonces_nodup =>
    rw [map_cons, nodup_cons]
    refine ⟨?_, ledger.nonces_nodup⟩
    intro mem
    obtain ⟨other, inside, same⟩ := mem_map.mp mem
    exact newNonce other inside (same.trans key)
  case nonceful =>
    refine forall_mem_cons.mpr ⟨?_, ledger.nonceful⟩
    rw [key]
    rfl
  case priced => exact forall_mem_cons.mpr ⟨positive, ledger.priced⟩
  case named =>
    apply named_write
    apply named_write
    apply named_write
    apply named_write
    apply named_write
    exact ledger.named

theorem mem_erase_iff {other : Entry} : other ∈ entries.erase entry ↔ other ≠ entry ∧ other ∈ entries :=
  (ledger.seqs_nodup.of_map Entry.seq).mem_erase_iff

/-- What tells the entry apart is not found once it is erased. -/
theorem erase_ne {κ : Type} {name : Entry → κ} (tells : ∀ other ∈ entries, name other = name entry → other = entry) :
    ∀ other ∈ entries.erase entry, name other ≠ name entry := by
  intro other inside same
  obtain ⟨distinct, known⟩ := ledger.mem_erase_iff.mp inside
  exact distinct (tells other known same)

/-- One record less. -/
theorem drop (mem : entry ∈ entries) {nonceKey : Bytes} {arr : AddressResourceRecord}
    (key : entry.nonceKey codec = some nonceKey)
    (stored : object codec.keys view addressResources entry.payer = some (codec.resources arr)) :
    Ledger codec (dropped codec view entry nonceKey arr) (entries.erase entry) := by
  have outcome : released arr entry.record.transaction.rcLimit = none ∧
      reserved entry.payer (entries.erase entry) = 0 ∨
        ∃ arr', released arr entry.record.transaction.rcLimit = some arr' ∧
          reserved entry.payer (entries.erase entry) ≠ 0 ∧ arr'.currentRc ≤ arr'.maxRc ∧
          arr'.maxRc.toNat - arr'.currentRc.toNat = reserved entry.payer (entries.erase entry) := by
    obtain ⟨arr', same, bounded, reserves⟩ := ledger.resources entry.payer _ stored
    have parsed := congrArg codec.parseResources same
    rw [codec.parse_resources, codec.parse_resources, some.injEq] at parsed
    subst parsed
    apply released_cases bounded
    rw [reserves, reserved_erase mem, if_pos rfl]
  have priced : ∀ other ∈ entries.erase entry, 0 < other.rcLimit :=
    fun other inside => ledger.priced other (mem_of_mem_erase inside)
  constructor
  case pending =>
    intro seq value
    have others := ledger.erase_ne fun other known same => ledger.eq_of_seq known mem (uint64Bytes_injective same)
    simpa using row_erase others (ledger.pending seq value)
  case index =>
    intro id value
    simpa using row_erase (ledger.erase_ne fun other known => ledger.eq_of_id known mem) (ledger.index id value)
  case nonces =>
    intro name
    have others := ledger.erase_ne fun other known => inj_on_of_nodup_map ledger.nonces_nodup known mem
    have named : name = nonceKey ↔ entry.nonceKey codec = some name := by rw [key, some.injEq, eq_comm]
    have left (here : entry.nonceKey codec = some name) : (none : Option Bytes).isSome ↔
        ∃ other ∈ entries.erase entry, other.nonceKey codec = some name :=
      iff_of_false Bool.false_ne_true fun ⟨other, inside, same⟩ => others other inside (same.trans here.symm)
    simpa using isSome_erase named left (ledger.nonces name)
  case metadata =>
    intro value written
    rw [metadata_dropped] at written
    obtain ⟨seqNum, same, above⟩ := ledger.metadata value written
    exact ⟨seqNum, same, fun other inside => above other (mem_of_mem_erase inside)⟩
  case counted =>
    intro _
    rw [metadata_dropped]
    exact ledger.counted (ne_nil_of_mem mem)
  case resources =>
    intro payer value written
    rw [resources_dropped] at written
    split_ifs at written with same
    · subst same
      rcases outcome with ⟨gone, -⟩ | ⟨arr', left, -, bounded, reserves⟩
      · rw [gone] at written
        contradiction
      · rw [left, map_some, some.injEq] at written
        exact ⟨arr', written.symm, bounded, reserves⟩
    · obtain ⟨arr', row, bounded, reserves⟩ := ledger.resources payer value written
      refine ⟨arr', row, bounded, ?_⟩
      rw [reserves, reserved_erase mem, if_neg (Ne.symm same), Nat.zero_add]
  case payers =>
    intro payer
    rw [resources_dropped]
    refine isSome_erase eq_comm ?_ (ledger.payers payer)
    rintro rfl
    rcases outcome with ⟨gone, none⟩ | ⟨arr', left, some, -⟩
    · rw [gone]
      refine iff_of_false Bool.false_ne_true ?_
      rintro ⟨other, inside, same⟩
      exact (reserved_eq_zero_iff priced entry.payer).mp none other inside same
    · rw [left]
      refine iff_of_true rfl ?_
      by_contra absent
      exact some ((reserved_eq_zero_iff priced entry.payer).mpr fun other inside same => absent ⟨other, inside, same⟩)
  case seqs_nodup => exact ledger.seqs_nodup.sublist (erase_sublist.map _)
  case nonces_nodup => exact ledger.nonces_nodup.sublist (erase_sublist.map _)
  case nonceful => exact fun other inside => ledger.nonceful other (mem_of_mem_erase inside)
  case priced => exact priced
  case named =>
    apply named_write
    apply named_write
    apply named_write
    apply named_write
    exact ledger.named

end

end Ledger

end Teleno.Mempool
