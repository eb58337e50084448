import Teleno.Library.LruCache
import Teleno.StateDb.Backend

/-! # The RocksDB backend behind its object cache

`rocksdb_backend` answers reads from an object cache of bounded size and otherwise from the column
family on disk. Inside a write batch the disk still holds the old objects, so the cache also stands
in for the records of the open batch. A record that the cache has pushed out before the batch ends is
invisible: the backend then reads the old object, and counts the key as it was. The backend answers
like a `map_backend` exactly as long as no such key is looked up and every entry fits into the cache.
-/

namespace Teleno.StateDb

open Library List Option

/-- The size of a cache entry, at least one byte for the key and one for the value. -/
def entrySize (key : Bytes) (value : Option Bytes) : ℕ :=
  max (key.length + (value.map List.length).getD 0) 2

/-- `object_cache`. A key is also cached when it is known to be absent. -/
abbrev ObjectCache := LruCache Bytes (Option Bytes) entrySize

/-- `rocksdb_backend` with its cache and its count of the objects. -/
structure RocksdbBackend where
  db : RocksDb
  cache : ObjectCache
  size : UInt64

/-- The calls that read and write objects. -/
inductive BackendOp where
  | put (key value : Bytes)
  | get (key : Bytes)
  | erase (key : Bytes)
  | startWriteBatch
  | endWriteBatch
deriving DecidableEq

namespace RocksdbBackend

variable (b : RocksdbBackend)

/-- `open` on the disk of a closed backend: the count comes from the stored metadata. -/
def opened (capacity : ℕ) (stored : Backend) : RocksdbBackend where
  db := ⟨stored.objects, stored.metadata, none⟩
  cache := .empty entrySize capacity
  size := stored.metadata.size.toUInt64

/-- A miss is answered from the disk and cached. Without a result the cache has run out of entries to
push out. -/
def get (key : Bytes) : Option (Option Bytes × RocksdbBackend) :=
  match b.cache.get key with
  | (some value, cache) => some (value, { b with cache })
  | (none, _) =>
    let value := b.db.objects[key]?
    (b.cache.put key value).map fun cache => (value, { b with cache })

/-- What `put` and `erase` have in common: they look the key up, hand the record to RocksDB, count the
objects by whether the key was found, and cache the new value. -/
def store (key : Bytes) (value : Option Bytes) (record : BatchOp) (count : Bool → UInt64 → UInt64) :
    Option RocksdbBackend := do
  let (found, b) ← b.get key
  let cache ← b.cache.put key value
  some ⟨b.db.write record, cache, count found.isSome b.size⟩

def countPut (found : Bool) (size : UInt64) : UInt64 := if found then size else size + 1

def countErase (found : Bool) (size : UInt64) : UInt64 := if found then size - 1 else size

def put (key value : Bytes) : Option RocksdbBackend := b.store key (some value) (.put key value) countPut

def erase (key : Bytes) : Option RocksdbBackend := b.store key none (.delete key) countErase

/-- A second batch is refused and leaves the first one open. -/
def startWriteBatch : RocksdbBackend :=
  match b.db.writeBatch with
  | some _ => b
  | none => { b with db := { b.db with writeBatch := some [] } }

/-- RocksDB accepts the batch. -/
def endWriteBatch : RocksdbBackend :=
  match b.db.writeBatch with
  | none => b
  | some batch => { b with db := { batch.foldl RocksDb.apply b.db with writeBatch := none } }

/-- One call: what a `get` answers, and the backend afterwards. -/
def apply : BackendOp → Option (Option Bytes × RocksdbBackend)
  | .put key value => (b.put key value).map fun b => (none, b)
  | .get key => b.get key
  | .erase key => (b.erase key).map fun b => (none, b)
  | .startWriteBatch => some (none, b.startWriteBatch)
  | .endWriteBatch => some (none, b.endWriteBatch)

/-- Every answer of a sequence of calls, with `size()` after each. -/
def run : RocksdbBackend → List BackendOp → Option (List (Option Bytes × UInt64))
  | _, [] => some []
  | b, op :: rest => do
    let (answer, b) ← b.apply op
    let answers ← run b rest
    some ((answer, b.size) :: answers)

end RocksdbBackend

namespace Backend

/-- The same calls on a `map_backend`, for which batches mean nothing. -/
def applyOp (m : Backend) : BackendOp → Option Bytes × Backend
  | .put key value => (none, m.put key value)
  | .get key => (m.get key, m)
  | .erase key => (none, m.erase key)
  | .startWriteBatch => (none, m)
  | .endWriteBatch => (none, m)

def run : Backend → List BackendOp → List (Option Bytes × UInt64)
  | _, [] => []
  | m, op :: rest => ((m.applyOp op).1, (m.applyOp op).2.size.toUInt64) :: run (m.applyOp op).2 rest

end Backend

/-- What a batch record does to the objects. -/
def BatchOp.applyTo (objects : ObjectMap) : BatchOp → ObjectMap
  | .put key value => objects.insert key value
  | .delete key => objects.erase key
  | .putMetadata _ => objects

namespace RocksdbBackend

/-- The objects once the open batch is written. -/
def pending (b : RocksdbBackend) : ObjectMap := (b.db.writeBatch.getD []).foldl BatchOp.applyTo b.db.objects

/-- The entry fits into the cache. -/
def Fits (b : RocksdbBackend) (key : Bytes) (value : Option Bytes) : Prop :=
  entrySize key value ≤ b.cache.capacity

/-- The key is cached, or its object on disk can be cached and is, in the given respect, the one that
the open batch leaves. -/
def Visible {α : Type} (b : RocksdbBackend) (key : Bytes) (respect : Option Bytes → α) : Prop :=
  (b.cache.find key).isSome ∨
    b.Fits key b.db.objects[key]? ∧ respect b.db.objects[key]? = respect b.pending[key]?

/-- A call is served if its key is visible and what it caches fits. A read depends on the whole object,
a write only on its presence. -/
def Served (b : RocksdbBackend) : BackendOp → Prop
  | .put key value => b.Visible key Option.isSome ∧ b.Fits key (some value)
  | .get key => b.Visible key id
  | .erase key => b.Visible key Option.isSome ∧ b.Fits key none
  | .startWriteBatch => True
  | .endWriteBatch => True

/-- Every call of a sequence is served where it is made. -/
def AllServed : RocksdbBackend → List BackendOp → Prop
  | _, [] => True
  | b, op :: rest => b.Served op ∧ ∀ answer b', b.apply op = some (answer, b') → AllServed b' rest

section Batch

variable (b : RocksdbBackend)

theorem objects_apply (db : RocksDb) (op : BatchOp) : (db.apply op).objects = op.applyTo db.objects := by
  cases op <;> rfl

/-- A write is the last record of the batch, or goes to the disk. -/
theorem pending_write (op : BatchOp) (cache : ObjectCache) (size : UInt64) :
    pending ⟨b.db.write op, cache, size⟩ = op.applyTo b.pending := by
  cases batch : b.db.writeBatch with
  | none => cases op <;> simp [pending, RocksDb.write, batch, RocksDb.apply, BatchOp.applyTo]
  | some ops =>
    simp [pending, RocksDb.write, batch]

theorem pending_startWriteBatch : b.startWriteBatch.pending = b.pending := by
  rw [startWriteBatch]
  cases batch : b.db.writeBatch with
  | none => simp [pending, batch]
  | some ops => rfl

theorem pending_endWriteBatch : b.endWriteBatch.pending = b.pending := by
  rw [endWriteBatch]
  cases batch : b.db.writeBatch with
  | none => rfl
  | some ops =>
    simp only [pending, batch, getD_some, getD_none, foldl_nil]
    exact (foldl_hom RocksDb.objects (fun db op => (objects_apply db op).symm)).symm

end Batch

/-- What a read answers, if it returns. -/
def answer (b : RocksdbBackend) (key : Bytes) : Option Bytes := (b.cache.find key).getD b.db.objects[key]?

/-- The backend after a read: the answer is cached, others may have been pushed out. -/
structure Looked (b : RocksdbBackend) (key : Bytes) (b' : RocksdbBackend) : Prop where
  db : b'.db = b.db
  size : b'.size = b.size
  capacity : b'.cache.capacity = b.cache.capacity
  self : b'.cache.find key = some (b.answer key)
  others : ∀ other ≠ key, b'.cache.find other = none ∨ b'.cache.find other = b.cache.find other

theorem looked_of_get {b b' : RocksdbBackend} {key : Bytes} {answer : Option Bytes}
    (ok : b.get key = some (answer, b')) : answer = b.answer key ∧ b.Looked key b' := by
  rw [get] at ok
  have found : (b.cache.get key).1 = b.cache.find key := LruCache.get_fst key
  have kept : ∀ other, (b.cache.get key).2.find other = b.cache.find other := LruCache.find_get key
  have capacity : (b.cache.get key).2.capacity = b.cache.capacity := LruCache.capacity_get key
  rcases looked : b.cache.get key with ⟨hit, cache⟩
  rw [looked] at ok found kept capacity
  cases hit with
  | some value =>
    cases ok
    have known : b.answer key = answer := by rw [RocksdbBackend.answer, ← found, getD_some]
    refine ⟨known.symm, rfl, rfl, capacity, ?_, fun other _ => .inr (kept other)⟩
    rw [kept, known, ← found]
  | none =>
    obtain ⟨cache', cached, same⟩ := map_eq_some_iff.mp ok
    cases same
    have known : b.answer key = b.db.objects[key]? := by
      rw [RocksdbBackend.answer, ← found, getD_none]
    obtain ⟨capacity', self, others⟩ := LruCache.put_spec cached
    exact ⟨known.symm, rfl, rfl, capacity', known ▸ self, others⟩

/-- A read returns if its key is cached or can be. -/
theorem get_isSome_iff {b : RocksdbBackend} {key : Bytes} :
    (b.get key).isSome ↔ (b.cache.find key).isSome ∨ b.Fits key b.db.objects[key]? := by
  rw [get]
  have found : (b.cache.get key).1 = b.cache.find key := LruCache.get_fst key
  rcases looked : b.cache.get key with ⟨hit, cache⟩
  rw [looked] at found
  cases hit with
  | some value => rw [← found]; simp
  | none =>
    rw [← found, isSome_map, LruCache.put_isSome_iff, Fits]
    simp

/-- The backend stands for the map: the batch brings the disk to the map, what is cached agrees with
the map, and the count is right. -/
structure Represents (b : RocksdbBackend) (m : Backend) : Prop where
  objects : b.pending = m.objects
  cached : ∀ key value, b.cache.find key = some value → value = m.get key
  size : b.size = m.size.toUInt64

namespace Represents

variable {b b' : RocksdbBackend} {m : Backend} {key : Bytes}

theorem opened (capacity : ℕ) (m : Backend) : (RocksdbBackend.opened capacity m).Represents m where
  objects := rfl
  cached := by
    intro key value found
    contradiction
  size := rfl

/-- A key is visible if the read of it returns and answers like the map, in the given respect. -/
theorem visible_iff {α : Type} (represents : b.Represents m) (respect : Option Bytes → α) :
    b.Visible key respect ↔ (b.get key).isSome ∧ respect (b.answer key) = respect (m.get key) := by
  rw [Visible, get_isSome_iff, represents.objects, ← Backend.get, answer]
  cases found : b.cache.find key with
  | none => simp
  | some value => simp [represents.cached key value found]

variable {value : Option Bytes}

/-- Caching a right value keeps the cache right. -/
theorem cached_of_put (represents : b.Represents m) (looked : b.Looked key b')
    {cache : ObjectCache} (put : b'.cache.put key value = some cache) (other : Bytes) {value' : Option Bytes}
    (found : cache.find other = some value') : value' = if other = key then value else m.get other := by
  obtain ⟨-, self, others⟩ := LruCache.put_spec put
  split_ifs with same
  · rw [same, self] at found
    exact (some.inj found).symm
  · rcases others other same with gone | kept
    · rw [gone] at found
      contradiction
    rw [kept] at found
    rcases looked.others other same with gone | kept
    · rw [gone] at found
      contradiction
    · exact represents.cached other value' (kept ▸ found)

/-- A write returns if its lookup does and the new value fits. -/
theorem store_isSome_iff {record : BatchOp} {count : Bool → UInt64 → UInt64} :
    (b.store key value record count).isSome ↔ (b.get key).isSome ∧ b.Fits key value := by
  rw [store]
  cases ok : b.get key with
  | none => simp
  | some looked =>
    obtain ⟨found, b'⟩ := looked
    have fits : (b'.cache.put key value).isSome ↔ entrySize key value ≤ b'.cache.capacity := LruCache.put_isSome_iff
    rw [(looked_of_get ok).2.capacity] at fits
    simp only [bind_eq_bind, bind_some, isSome_some, true_and, Fits, ← fits]
    cases b'.cache.put key value <;> rfl

/-- A write leaves the map with its record applied, and counts by what the lookup has found. -/
theorem store_spec (represents : b.Represents m) {record : BatchOp}
    {count : Bool → UInt64 → UInt64} {b'' : RocksdbBackend}
    (ok : b.store key value record count = some b'') :
    b''.pending = record.applyTo m.objects ∧ b''.size = count (b.answer key).isSome m.size.toUInt64 ∧
      ∀ other value', b''.cache.find other = some value' →
        value' = if other = key then value else m.get other := by
  obtain ⟨⟨found, b'⟩, reads, ok⟩ := bind_eq_some_iff.mp ok
  obtain ⟨cache, cached, ok⟩ := bind_eq_some_iff.mp ok
  cases ok
  obtain ⟨rfl, looked⟩ := looked_of_get reads
  refine ⟨?_, ?_, fun other value' => represents.cached_of_put looked cached other⟩
  · rw [pending_write, pending, looked.db, ← represents.objects, pending]
  · rw [looked.size, represents.size]

end Represents

section Count

variable {m : Backend} {key value : Bytes}

theorem size_put : (m.put key value).size.toUInt64 = countPut (m.get key).isSome m.size.toUInt64 := by
  rw [Backend.size, Backend.put, Std.ExtTreeMap.size_insert, Backend.get, ← Std.ExtTreeMap.contains_eq_isSome_getElem?]
  cases present : m.objects.contains key
  · exact UInt64.ofNat_add _ 1
  · rfl

theorem size_erase : (m.erase key).size.toUInt64 = countErase (m.get key).isSome m.size.toUInt64 := by
  rw [Backend.size, Backend.erase, Std.ExtTreeMap.size_erase, Backend.get, ← Std.ExtTreeMap.contains_eq_isSome_getElem?]
  cases present : m.objects.contains key
  · rfl
  · have positive : m.objects.size ≠ 0 := by
      rintro empty
      rw [← Std.ExtTreeMap.eq_empty_iff_size_eq_zero] at empty
      rw [empty] at present
      contradiction
    obtain ⟨rest, size⟩ := Nat.exists_eq_succ_of_ne_zero positive
    simp [countErase, Backend.size, size]

theorem countPut_inj {found found' : Bool} {size : UInt64} :
    countPut found size = countPut found' size ↔ found = found' := by
  cases found <;> cases found' <;> simp [countPut]

theorem countErase_inj {found found' : Bool} {size : UInt64} :
    countErase found size = countErase found' size ↔ found = found' := by
  have shrinks : size - 1 ≠ size := by grind
  cases found <;> cases found' <;> simp [countErase, shrinks, shrinks.symm]

end Count

/-- A call returns, answers like the map and leaves the size of the map. -/
def Agrees (b : RocksdbBackend) (m : Backend) (op : BackendOp) : Prop :=
  ∃ b', b.apply op = some ((m.applyOp op).1, b') ∧ b'.size = (m.applyOp op).2.size.toUInt64

namespace Represents

variable {b : RocksdbBackend} {m : Backend}

theorem agrees_store_iff (represents : b.Represents m) {key : Bytes} {value : Option Bytes} {record : BatchOp}
    {count : Bool → UInt64 → UInt64} {m' : Backend}
    (counted : m'.size.toUInt64 = count (m.get key).isSome m.size.toUInt64)
    (injective : ∀ found found' size, count found size = count found' size ↔ found = found') :
    (∃ b', (b.store key value record count).map (fun b => ((none : Option Bytes), b)) = some (none, b') ∧
      b'.size = m'.size.toUInt64) ↔ b.Visible key isSome ∧ b.Fits key value := by
  rw [represents.visible_iff, counted]
  constructor
  · rintro ⟨b', ok, size⟩
    obtain ⟨_, ok, same⟩ := map_eq_some_iff.mp ok
    cases same
    obtain ⟨looks, fits⟩ := store_isSome_iff.mp (isSome_iff_exists.mpr ⟨b', ok⟩)
    rw [(represents.store_spec ok).2.1, injective] at size
    exact ⟨⟨looks, size⟩, fits⟩
  · rintro ⟨⟨looks, same⟩, fits⟩
    obtain ⟨b', ok⟩ := isSome_iff_exists.mp (store_isSome_iff.mpr ⟨looks, fits⟩)
    exact ⟨b', map_eq_some_iff.mpr ⟨b', ok, rfl⟩, by rw [(represents.store_spec ok).2.1, same]⟩

theorem size_startWriteBatch : b.startWriteBatch.size = b.size := by
  rw [startWriteBatch]
  split <;> rfl

theorem size_endWriteBatch : b.endWriteBatch.size = b.size := by
  rw [endWriteBatch]
  split <;> rfl

section

variable (represents : b.Represents m)

include represents

/-- A call agrees with the map exactly if it is served. -/
theorem agrees_iff (op : BackendOp) : b.Agrees m op ↔ b.Served op := by
  cases op with
  | put key value =>
    exact represents.agrees_store_iff size_put fun _ _ _ => countPut_inj
  | erase key =>
    exact represents.agrees_store_iff size_erase fun _ _ _ => countErase_inj
  | get key =>
    rw [Served, represents.visible_iff, id, id]
    constructor
    · rintro ⟨b', ok, -⟩
      exact ⟨isSome_iff_exists.mpr ⟨_, ok⟩, (looked_of_get ok).1.symm⟩
    · rintro ⟨reads, same⟩
      obtain ⟨⟨answer, b'⟩, ok⟩ := isSome_iff_exists.mp reads
      obtain ⟨rfl, looked⟩ := looked_of_get ok
      rw [same] at ok
      exact ⟨b', ok, looked.size.trans represents.size⟩
  | startWriteBatch => exact iff_of_true ⟨_, rfl, size_startWriteBatch.trans represents.size⟩ trivial
  | endWriteBatch => exact iff_of_true ⟨_, rfl, size_endWriteBatch.trans represents.size⟩ trivial

theorem store {key : Bytes} {value : Option Bytes} {record : BatchOp}
    {count : Bool → UInt64 → UInt64} {m' : Backend} {b' : RocksdbBackend}
    (ok : b.store key value record count = some b') (size : b'.size = m'.size.toUInt64)
    (objects : m'.objects = record.applyTo m.objects)
    (get : ∀ other, m'.get other = if other = key then value else m.get other) : b'.Represents m' where
  objects := (represents.store_spec ok).1.trans objects.symm
  cached other value' found := ((represents.store_spec ok).2.2 other value' found).trans (get other).symm
  size := size

/-- A call that agrees with the map leaves a backend that stands for the map's successor. -/
theorem step {op : BackendOp} {b' : RocksdbBackend} (ok : b.apply op = some ((m.applyOp op).1, b'))
    (size : b'.size = (m.applyOp op).2.size.toUInt64) : b'.Represents (m.applyOp op).2 := by
  cases op with
  | put key value =>
    obtain ⟨b'', stores, same⟩ := map_eq_some_iff.mp ok
    cases same
    refine represents.store stores size rfl fun other => ?_
    rw [Backend.applyOp, Backend.get_put]
    simp [eq_comm]
  | erase key =>
    obtain ⟨b'', stores, same⟩ := map_eq_some_iff.mp ok
    cases same
    refine represents.store stores size rfl fun other => ?_
    rw [Backend.applyOp, Backend.get_erase]
    simp [eq_comm]
  | get key =>
    obtain ⟨answer, looked⟩ := looked_of_get ok
    refine ⟨?_, fun other value found => ?_, size⟩
    · rw [pending, looked.db]
      exact represents.objects
    · by_cases same : other = key
      · rw [same, looked.self, ← answer] at found
        exact same ▸ (some.inj found).symm
      · rcases looked.others other same with gone | kept
        · rw [gone] at found
          contradiction
        · exact represents.cached other value (kept ▸ found)
  | startWriteBatch =>
    cases ok
    refine ⟨b.pending_startWriteBatch.trans represents.objects, fun other value found => ?_, size⟩
    refine represents.cached other value ?_
    rw [startWriteBatch] at found
    split at found <;> exact found
  | endWriteBatch =>
    cases ok
    refine ⟨b.pending_endWriteBatch.trans represents.objects, fun other value found => ?_, size⟩
    refine represents.cached other value ?_
    rw [endWriteBatch] at found
    split at found <;> exact found

/-- A sequence of calls is answered like the map exactly if every call is served. -/
theorem run_eq_iff (ops : List BackendOp) : b.run ops = some (m.run ops) ↔ b.AllServed ops := by
  induction ops generalizing b m with
  | nil => exact iff_of_true rfl trivial
  | cons op rest ih =>
    rw [AllServed, ← represents.agrees_iff op]
    constructor
    · intro same
      obtain ⟨⟨answer, b'⟩, ok, same⟩ := bind_eq_some_iff.mp same
      obtain ⟨answers, runs, same⟩ := bind_eq_some_iff.mp same
      rw [Backend.run, some.injEq, cons.injEq, Prod.mk.injEq] at same
      obtain ⟨⟨rfl, size⟩, rfl⟩ := same
      refine ⟨⟨b', ok, size⟩, fun answer b'' again => ?_⟩
      obtain ⟨rfl, rfl⟩ := Prod.mk.inj (some.inj (ok.symm.trans again))
      exact (ih (represents.step ok size)).mp runs
    · rintro ⟨⟨b', ok, size⟩, served⟩
      have runs := (ih (represents.step ok size)).mpr (served _ b' ok)
      rw [RocksdbBackend.run, ok]
      simp [bind_eq_bind, bind_some, runs, size, Backend.run]

end

end Represents

/-- Opened on any disk and with any cache size, the backend answers every sequence of calls like a
`map_backend` exactly if each call is served. -/
theorem opened_run_eq_iff (capacity : ℕ) (m : Backend) (ops : List BackendOp) :
    (opened capacity m).run ops = some (m.run ops) ↔ (opened capacity m).AllServed ops :=
  (Represents.opened capacity m).run_eq_iff ops

/-- A batch writes two keys into a cache that holds one, and reads the first back. -/
def pushedOut : List BackendOp :=
  [.startWriteBatch, .put [1] [7], .put [2] [8], .get [1], .endWriteBatch]

/-- The key written first is answered as absent, although the batch has put it. -/
theorem opened_run_of_pushedOut :
    ((opened 3 {}).run pushedOut).map (·.map Prod.fst) = some [none, none, none, none, none] ∧
      (Backend.run {} pushedOut).map Prod.fst = [none, none, none, some [7], none] := by
  decide +kernel

end RocksdbBackend

end Teleno.StateDb
