import Mathlib.Data.List.Nodup

/-! # Caches of bounded weight with least recently used eviction

The entries are kept in the order of their last use, most recent first, with a running total of
their weights. A new entry pushes out the oldest ones until the total stays within the capacity. If
the entry does not even fit into an empty cache, there is nothing left to push out and inserting it
is undefined. A cache carries the proof that its keys are distinct and its total is right.
-/

namespace Teleno.Library

open List

variable {κ ν : Type}

/-- The total weight of a list of entries. -/
def totalWeight (weight : κ → ν → ℕ) : List (κ × ν) → ℕ
  | [] => 0
  | entry :: rest => weight entry.1 entry.2 + totalWeight weight rest

/-- Entries in the order of their last use, and the sum of their weights. -/
structure LruCache (κ ν : Type) (weight : κ → ν → ℕ) where
  capacity : ℕ
  entries : List (κ × ν)
  load : ℕ
  nodup : (entries.map Prod.fst).Nodup
  load_eq : load = totalWeight weight entries

variable {weight : κ → ν → ℕ} [DecidableEq κ]

variable {key : κ} {value : ν}

section Entries

variable {entries : List (κ × ν)}

private theorem lookup_cons_ite (entry : κ × ν) (rest : List (κ × ν)) (key : κ) :
    (entry :: rest).lookup key = if key = entry.1 then some entry.2 else rest.lookup key := by
  rw [lookup_cons]
  by_cases hit : key = entry.1
  · rw [hit, beq_self_eq_true, if_pos rfl]
  · rw [beq_false_of_ne hit, if_neg hit]

private theorem lookup_eq_none_iff : entries.lookup key = none ↔ key ∉ entries.map Prod.fst := by
  induction entries with
  | nil => simp
  | cons entry rest ih =>
    rw [lookup_cons_ite, map_cons, mem_cons]
    by_cases hit : key = entry.1
    · simp [hit]
    · simp [hit, ih]

private theorem filter_ne_of_not_mem (absent : key ∉ entries.map Prod.fst) : entries.filter (·.1 ≠ key) = entries := by
  rw [filter_eq_self]
  intro entry mem
  rw [decide_eq_true_iff]
  rintro rfl
  exact absent (mem_map_of_mem mem)

private theorem lookup_filter_ne (other : κ) :
    (entries.filter (·.1 ≠ key)).lookup other = if other = key then none else entries.lookup other := by
  induction entries with
  | nil => simp
  | cons entry rest ih =>
    by_cases same : entry.1 = key
    · rw [filter_cons_of_neg (by simpa using same), ih, lookup_cons_ite]
      split_ifs with hit hit'
      · rfl
      · exact absurd (hit'.trans same) hit
      · rfl
    · rw [filter_cons_of_pos (by simpa using same), lookup_cons_ite, lookup_cons_ite, ih]
      by_cases hit : other = entry.1
      · rw [if_pos hit, if_pos hit, if_neg (hit ▸ same)]
      · rw [if_neg hit, if_neg hit]

private theorem totalWeight_filter_ne (nodup : (entries.map Prod.fst).Nodup) (found : entries.lookup key = some value) :
    totalWeight weight entries = weight key value + totalWeight weight (entries.filter (·.1 ≠ key)) := by
  induction entries with
  | nil => contradiction
  | cons entry rest ih =>
    rw [map_cons, nodup_cons] at nodup
    rw [lookup_cons_ite] at found
    by_cases same : entry.1 = key
    · obtain rfl := same
      rw [if_pos rfl, Option.some.injEq] at found
      rw [filter_cons_of_neg (by simp), filter_ne_of_not_mem nodup.1, totalWeight, found]
    · rw [if_neg (Ne.symm same)] at found
      have total := ih nodup.2 found
      rw [filter_cons_of_pos (by simpa using same), totalWeight, totalWeight]
      omega

end Entries

namespace LruCache

variable (cache : LruCache κ ν weight)

/-- Nothing is cached yet. -/
def empty (weight : κ → ν → ℕ) (capacity : ℕ) : LruCache κ ν weight :=
  ⟨capacity, [], 0, List.nodup_nil, rfl⟩

/-- The cached value, without counting as a use. -/
def find (key : κ) : Option ν := cache.entries.lookup key

/-- Forget a key that is cached with the given value. -/
def drop (key : κ) (value : ν) (found : cache.find key = some value) : LruCache κ ν weight where
  capacity := cache.capacity
  entries := cache.entries.filter (·.1 ≠ key)
  load := cache.load - weight key value
  nodup := cache.nodup.sublist (List.filter_sublist.map _)
  load_eq := by rw [cache.load_eq, totalWeight_filter_ne cache.nodup found]; omega

/-- Forget a key, if it is cached. -/
def remove (key : κ) : LruCache κ ν weight :=
  match found : cache.find key with
  | none => cache
  | some value => cache.drop key value found

/-- Put an entry in front of the others; the key must not be cached. -/
def push (key : κ) (value : ν) (absent : cache.find key = none) : LruCache κ ν weight where
  capacity := cache.capacity
  entries := (key, value) :: cache.entries
  load := cache.load + weight key value
  nodup := List.nodup_cons.mpr ⟨lookup_eq_none_iff.mp absent, cache.nodup⟩
  load_eq := by rw [totalWeight, cache.load_eq, Nat.add_comm]

/-- Push out the oldest entries until `need` fits. Each round removes one entry; without entries
there is none to remove. -/
def makeRoom (need : ℕ) : ℕ → LruCache κ ν weight → Option (LruCache κ ν weight)
  | 0, cache => if cache.load + need ≤ cache.capacity then some cache else none
  | rounds + 1, cache =>
    if cache.load + need ≤ cache.capacity then some cache else
    cache.entries.getLast?.bind fun oldest => makeRoom need rounds (cache.remove oldest.1)

section Remove

variable {cache}

theorem find_drop (found : cache.find key = some value) (other : κ) :
    (cache.drop key value found).find other = if other = key then none else cache.find other :=
  lookup_filter_ne other

theorem find_drop_self (found : cache.find key = some value) : (cache.drop key value found).find key = none := by
  rw [find_drop, if_pos rfl]

theorem find_remove (key other : κ) :
    (cache.remove key).find other = if other = key then none else cache.find other := by
  rw [remove]
  split
  next absent =>
    split_ifs with same
    · rw [same, absent]
    · rfl
  next => exact find_drop _ other

theorem capacity_remove (key : κ) : (cache.remove key).capacity = cache.capacity := by
  rw [remove]
  split <;> rfl

theorem find_push (absent : cache.find key = none) (other : κ) :
    (cache.push key value absent).find other = if other = key then some value else cache.find other :=
  lookup_cons_ite _ _ _

/-- Removing the oldest entry leaves fewer. -/
theorem length_remove_lt {oldest : κ × ν} (last : oldest ∈ cache.entries) :
    (cache.remove oldest.1).entries.length < cache.entries.length := by
  rw [remove]
  split
  next absent => exact absurd (mem_map_of_mem last) (lookup_eq_none_iff.mp absent)
  next => exact length_filter_lt_length_iff_exists.mpr ⟨oldest, last, by simp⟩

theorem length_remove_le (key : κ) : (cache.remove key).entries.length ≤ cache.entries.length := by
  rw [remove]
  split
  · exact Nat.le_refl _
  · exact length_filter_le _ _

end Remove

variable {need rounds : ℕ}

theorem makeRoom_isSome_iff (enough : cache.entries.length ≤ rounds) :
    (makeRoom need rounds cache).isSome ↔ need ≤ cache.capacity := by
  induction rounds generalizing cache with
  | zero =>
    have nothing : cache.load = 0 := by
      rw [cache.load_eq, eq_nil_of_length_eq_zero (Nat.le_zero.mp enough), totalWeight]
    rw [makeRoom, nothing, Nat.zero_add]
    split <;> simp_all
  | succ rounds ih =>
    rw [makeRoom]
    split_ifs with fits
    · exact iff_of_true rfl (by omega)
    · cases oldest : cache.entries.getLast? with
      | none =>
        have nothing : cache.load = 0 := by
          rw [cache.load_eq, getLast?_eq_none_iff.mp oldest, totalWeight]
        exact iff_of_false (by simp) (by omega)
      | some entry =>
        have shorter := length_remove_lt (mem_of_getLast? oldest)
        rw [Option.bind_some, ih _ (by omega), capacity_remove]

/-- Making room only forgets entries. -/
theorem makeRoom_spec {roomy : LruCache κ ν weight} (made : makeRoom need rounds cache = some roomy) :
    roomy.capacity = cache.capacity ∧ ∀ key, roomy.find key = none ∨ roomy.find key = cache.find key := by
  induction rounds generalizing cache with
  | zero =>
    rw [makeRoom] at made
    split at made
    · cases made
      exact ⟨rfl, fun _ => .inr rfl⟩
    · contradiction
  | succ rounds ih =>
    rw [makeRoom] at made
    split at made
    · cases made
      exact ⟨rfl, fun _ => .inr rfl⟩
    · obtain ⟨oldest, -, made⟩ := Option.bind_eq_some_iff.mp made
      obtain ⟨capacity, kept⟩ := ih _ made
      refine ⟨capacity.trans (capacity_remove _), fun key => ?_⟩
      rcases kept key with gone | same
      · exact .inl gone
      · rw [same, find_remove]
        split
        · exact .inl rfl
        · exact .inr rfl

/-- Room for a key is made once the key is forgotten. -/
theorem find_of_makeRoom {key : κ} {roomy : LruCache κ ν weight}
    (made : makeRoom need rounds (cache.remove key) = some roomy) : roomy.find key = none := by
  refine ((makeRoom_spec _ made).2 key).elim id fun same => ?_
  rw [same, find_remove, if_pos rfl]

/-- A use moves the entry to the front. -/
def get (key : κ) : Option ν × LruCache κ ν weight :=
  match found : cache.find key with
  | none => (none, cache)
  | some value => (some value, (cache.drop key value found).push key value (find_drop_self found))

/-- Cache a value in place of an earlier one. -/
def put (key : κ) (value : ν) : Option (LruCache κ ν weight) :=
  match made : makeRoom (weight key value) cache.entries.length (cache.remove key) with
  | none => none
  | some roomy => some (roomy.push key value (find_of_makeRoom cache made))

section Use

variable {cache}

theorem get_fst (key : κ) : (cache.get key).1 = cache.find key := by
  rw [get]
  split
  next absent => exact absent.symm
  next found => exact found.symm

theorem find_get (key other : κ) : (cache.get key).2.find other = cache.find other := by
  rw [get]
  split
  next => rfl
  next value found =>
    rw [find_push, find_drop]
    split_ifs with same
    · rw [same, found]
    · rfl

theorem capacity_get (key : κ) : (cache.get key).2.capacity = cache.capacity := by
  rw [get]
  split <;> rfl

/-- An entry can be cached if it fits into the empty cache. -/
theorem put_isSome_iff : (cache.put key value).isSome ↔ weight key value ≤ cache.capacity := by
  have capacity : (cache.remove key).capacity = cache.capacity := capacity_remove key
  rw [← capacity, ← makeRoom_isSome_iff (cache.remove key) (length_remove_le key), put]
  split
  next full => rw [full, Option.isSome_none]
  next made => exact iff_of_true rfl (Option.isSome_iff_exists.mpr ⟨_, made⟩)

/-- Caching a value may push out others, and changes no other. -/
theorem put_spec {cache' : LruCache κ ν weight} (cached : cache.put key value = some cache') :
    cache'.capacity = cache.capacity ∧ cache'.find key = some value ∧
      ∀ other ≠ key, cache'.find other = none ∨ cache'.find other = cache.find other := by
  rw [put] at cached
  split at cached
  next => contradiction
  next roomy made =>
    cases cached
    obtain ⟨capacity, kept⟩ := makeRoom_spec _ made
    refine ⟨capacity.trans (capacity_remove key), ?_, fun other distinct => ?_⟩
    · rw [find_push, if_pos rfl]
    · rw [find_push, if_neg distinct]
      refine (kept other).imp_right fun same => ?_
      rw [same, find_remove, if_neg distinct]

end Use

end LruCache

end Teleno.Library
