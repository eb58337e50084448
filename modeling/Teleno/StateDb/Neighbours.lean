import Teleno.StateDb.MergeBack
import Teleno.StateDb.WellFormed

/-! # The objects before and after a key

Database keys are serialized with the space first, as a field that can be read without knowing what
follows it. The keys of one space therefore lie next to each other, and the first visible key after a
given one, whatever its space, decides whether the space has an object after it.
-/

namespace Teleno.StateDb

open Library IteratorWrapper MergeIterator List Option
open scoped Library.ByteOrder

/-- A key between two keys of one space is in that space. -/
theorem space_of_between (format : WireFormat) {space : ObjectSpace} {left right : Bytes} {middle : DatabaseKey}
    (above : format.codec.serialize ⟨space, left⟩ ≤ format.codec.serialize middle)
    (below : format.codec.serialize middle ≤ format.codec.serialize ⟨space, right⟩) : middle.space = space := by
  have starts : format.spaceField space <+: format.codec.serialize middle :=
    KeyOrder.start_of_between (prefix_append _ _) (prefix_append _ _)
      ((ByteOrder.isLE_compare_iff _ _).mpr above) ((ByteOrder.isLE_compare_iff _ _).mpr below)
  obtain ⟨rest, split'⟩ := starts
  have read := format.read_space space rest
  rw [split'] at read
  have own := format.read_space middle.space (format.keyField middle.key)
  exact congrArg Prod.fst (some.inj (own.symm.trans read))

/-- Every object is stored under a serialized key. -/
def StateDelta.Encoded (format : WireFormat) (d : StateDelta) : Prop :=
  ∀ key value, d.get key = some value → ∃ dbKey, key = format.codec.serialize dbKey

/-- The deltas from a node to the root. Revisions grow from parent to child. -/
structure DeltaChain (format : WireFormat) where
  deltas : List StateDelta
  present : deltas ≠ []
  descending : Descending deltas
  encoded : ∀ d ∈ deltas, d.Encoded format

namespace DeltaChain

variable {format : WireFormat} (chain : DeltaChain format)

/-- What `state_delta::find` answers at the head of the chain. -/
def view : View := findIn chain.deltas

theorem serialized (key : Bytes) (found : (chain.view key).isSome) : ∃ dbKey, key = format.codec.serialize dbKey := by
  obtain ⟨value, found⟩ := isSome_iff_exists.mp found
  obtain ⟨d, mem, stored, -⟩ := (findIn_eq_some_iff chain.descending).mp found
  exact chain.encoded d mem key value stored

end DeltaChain

variable {index : List IteratorWrapper} {m : IteratorWrapper} {bound : Bytes}

section Object

variable {format : WireFormat} {chain : DeltaChain format}

/-- What is read at a visible position. -/
theorem objectAt_eq (first : leading iteratorCompareLess index = some m) {entry : Bytes × Bytes}
    {later : List (Bytes × Bytes)} (position : m.itr.rest = entry :: later) {dbKey : DatabaseKey}
    (named : entry.1 = format.codec.serialize dbKey) (space : ObjectSpace) :
    objectAt format.codec space ⟨index, chain.deltas⟩ =
      .ok (if dbKey.space = space then some (entry.2, dbKey.key) else none) := by
  have read : format.codec.parse entry.1 = some dbKey := by
    rw [named]
    exact format.codec.parse_serialize dbKey
  rw [objectAt, entry_of_leading first position]
  change inSpace format.codec space entry = _
  rw [inSpace, read]
  rfl

end Object

section Nearest

variable {format : WireFormat} {view : View} {space : ObjectSpace} {beyond : Bytes → Prop}
  {before : Bytes → Bytes → Prop}

/-- The visible object of a space that comes before all others beyond a bound, in either direction. -/
def IsNearest (beyond : Bytes → Prop) (before : Bytes → Bytes → Prop) (format : WireFormat) (view : View)
    (space : ObjectSpace) : Option (Bytes × Bytes) → Prop
  | none => ∀ other, (View.object format.codec view space other).isSome →
      ¬ beyond (format.codec.serialize ⟨space, other⟩)
  | some (value, key) => View.object format.codec view space key = some value ∧
      beyond (format.codec.serialize ⟨space, key⟩) ∧
      ∀ other, (View.object format.codec view space other).isSome → beyond (format.codec.serialize ⟨space, other⟩) →
        before (format.codec.serialize ⟨space, key⟩) (format.codec.serialize ⟨space, other⟩)

theorem IsNearest.unique {found found' : Option (Bytes × Bytes)} (antisymm : ∀ l r, before l r → before r l → l = r)
    (nearest : IsNearest beyond before format view space found)
    (nearest' : IsNearest beyond before format view space found') : found = found' := by
  rcases found with _ | ⟨value, key⟩ <;> rcases found' with _ | ⟨value', key'⟩
  · rfl
  · exact absurd nearest'.2.1 (nearest key' (isSome_iff_exists.mpr ⟨_, nearest'.1⟩))
  · exact absurd nearest.2.1 (nearest' key (isSome_iff_exists.mpr ⟨_, nearest.1⟩))
  · obtain ⟨shown, reached, first⟩ := nearest
    obtain ⟨shown', reached', first'⟩ := nearest'
    have same := format.codec.serialize_injective (antisymm _ _
      (first key' (isSome_iff_exists.mpr ⟨_, shown'⟩) reached')
      (first' key (isSome_iff_exists.mpr ⟨_, shown⟩) reached))
    obtain rfl : key = key' := congrArg DatabaseKey.key same
    rw [some.inj (shown.symm.trans shown')]

theorem IsNearest.eq_iff {found : Option (Bytes × Bytes)} (antisymm : ∀ l r, before l r → before r l → l = r)
    (nearest : IsNearest beyond before format view space found) (answer : Option (Bytes × Bytes)) :
    IsNearest beyond before format view space answer ↔ answer = found :=
  ⟨fun other => other.unique antisymm nearest, fun same => same ▸ nearest⟩

/-- The nearest visible key decides. If it is of another space, there is nothing in this one. -/
theorem isNearest_of_key {dbKey : DatabaseKey} {value : Bytes}
    (shown : view (format.codec.serialize dbKey) = some value) (reached : beyond (format.codec.serialize dbKey))
    (first : ∀ other, (view other).isSome → beyond other → before (format.codec.serialize dbKey) other)
    (between : ∀ other, before (format.codec.serialize dbKey) (format.codec.serialize ⟨space, other⟩) →
      dbKey.space = space) :
    IsNearest beyond before format view space (if dbKey.space = space then some (value, dbKey.key) else none) := by
  by_cases inside : dbKey.space = space
  · subst inside
    rw [if_pos rfl]
    exact ⟨shown, reached, fun other => first _⟩
  · rw [if_neg inside]
    exact fun other seen further => inside (between other (first _ seen further))

/-- A search in a sorted list of the keys that a node shows finds the nearest object. -/
theorem isNearest_neighbour {h : Heap} {p : ℕ} {keys : List Bytes} {test : Bytes → Bool} (refl : ∀ key, before key key)
    (sorted : keys.Pairwise before) (listed : ∀ key, key ∈ keys ↔ (h.find p key).isSome)
    (tests : ∀ key, test key ↔ beyond key) (between : ∀ dbKey other, beyond (format.codec.serialize dbKey) →
      before (format.codec.serialize dbKey) (format.codec.serialize ⟨space, other⟩) → dbKey.space = space)
    (encoded : ∀ key, (h.find p key).isSome → ∃ dbKey, key = format.codec.serialize dbKey) :
    IsNearest beyond before format (h.find p) space (h.neighbour format.codec p space (keys.find? test)) := by
  cases found : keys.find? test with
  | none => exact fun other visible => mt (tests _).mpr (find?_eq_none.mp found _ ((listed _).mpr visible))
  | some key =>
    obtain ⟨mem, passes, first⟩ := KeyOrder.find?_of_pairwise sorted found
    obtain ⟨dbKey, rfl⟩ := encoded key ((listed key).mp mem)
    obtain ⟨value, shown⟩ := isSome_iff_exists.mp ((listed _).mp mem)
    have nearest (other : Bytes) (visible : (h.find p other).isSome) (reached : beyond other) :
        before (format.codec.serialize dbKey) other := by
      rcases first other ((listed other).mpr visible) ((tests other).mpr reached) with rfl | later
      · exact refl _
      · exact later
    have reached := (tests _).mp passes
    rw [Heap.neighbour, bind_some, format.codec.parse_serialize, bind_some, shown]
    exact isNearest_of_key shown reached nearest (between dbKey · reached)

end Nearest

section Next

variable {format : WireFormat} {chain : DeltaChain format} {final : List IteratorWrapper}

/-- The visible object with the least key above the given one in its space, if there is one. -/
def IsNext (format : WireFormat) (view : View) (space : ObjectSpace) (key : Bytes) : Option (Bytes × Bytes) → Prop :=
  IsNearest (format.codec.serialize ⟨space, key⟩ < ·) (· ≤ ·) format view space

/-- The iterator stands at the least visible key above the bound, or at its end. -/
theorem stepOff_settled (settled : Settled chain.deltas (fun key => bound ≤ key) index)
    (finished : Settled chain.deltas (fun _ => False) final) :
    ∃ index' ahead, stepOff bound ⟨final, chain.deltas⟩ ⟨index, chain.deltas⟩ = .ok ⟨index', chain.deltas⟩ ∧
      Settled chain.deltas ahead index' ∧ ∀ key, (chain.view key).isSome → (ahead key ↔ bound < key) := by
  obtain ⟨m, mem, first, leads, last | ⟨entry, later, position, clean⟩⟩ := settled.position chain.present
  · refine ⟨index, _, ?_, settled, ?_⟩
    · rw [stepOff, equal_finish first chain.present finished chain.descending, last.1, isEmpty_nil, if_pos rfl]
      rfl
    · intro key visible
      have behind := settled.not_ahead chain.descending last.2 visible
      exact iff_of_false behind fun above => behind above.le
  · obtain ⟨visible, above, least⟩ := settled.least chain.descending mem leads position clean
    rw [stepOff, equal_finish first chain.present finished chain.descending, position, isEmpty_cons,
      if_neg Bool.false_ne_true, entry_of_leading first position]
    by_cases there : entry.1 = bound
    · obtain ⟨index', increments, settled'⟩ := increment_settled settled chain.descending mem first position clean
      refine ⟨index', _, ?_, settled', ?_⟩
      · change ite (entry.1 = bound) _ _ = _
        rw [if_pos there]
        exact increments
      · intro key _
        rw [there]
        exact ⟨fun both => lt_of_le_of_ne both.1 both.2.symm, fun less => ⟨less.le, less.ne'⟩⟩
    · refine ⟨index, _, ?_, settled, ?_⟩
      · change ite (entry.1 = bound) _ _ = _
        rw [if_neg there]
        rfl
      · intro key seen
        refine ⟨fun reaches => lt_of_le_of_ne reaches ?_, fun less => less.le⟩
        rintro rfl
        exact there (le_antisymm (least bound seen le_rfl) above)

/-- The search ends without an error at a next object. -/
theorem exists_isNext (chain : DeltaChain format) (space : ObjectSpace) (key : Bytes) :
    ∃ found, getNextObject format.codec chain.deltas space key = .ok found ∧
      IsNext format chain.view space key found := by
  obtain ⟨start, begins, settled⟩ := lowerBound_settled chain.descending (format.codec.serialize ⟨space, key⟩)
  obtain ⟨final, ends, finished⟩ := finish_settled chain.descending
  obtain ⟨index, ahead, steps, settled', exact'⟩ := stepOff_settled settled finished
  have unfolded : getNextObject format.codec chain.deltas space key =
      if equal ⟨index, chain.deltas⟩ ⟨final, chain.deltas⟩ then pure none
      else objectAt format.codec space ⟨index, chain.deltas⟩ := by
    rw [getNextObject, begins]
    change (finish chain.deltas >>= _) = _
    rw [ends]
    change (stepOff _ _ _ >>= _) = _
    rw [steps]
    rfl
  obtain ⟨m, mem, first, leads, last | ⟨entry, later, position, clean⟩⟩ := settled'.position chain.present <;>
    rw [unfolded, equal_finish first chain.present finished chain.descending]
  · refine ⟨none, ?_, ?_⟩
    · rw [last.1]
      rfl
    · intro other visible above
      exact settled'.not_ahead chain.descending last.2 visible ((exact' _ visible).mpr above)
  · obtain ⟨visible, reached, least⟩ := settled'.least chain.descending mem leads position clean
    have seen := isSome_iff_exists.mpr ⟨_, visible⟩
    obtain ⟨dbKey, named⟩ := chain.serialized _ seen
    have above := (exact' _ seen).mp reached
    rw [position, isEmpty_cons, if_neg Bool.false_ne_true, objectAt_eq first position named]
    rw [named] at above visible least
    exact ⟨_, rfl, isNearest_of_key visible above
      (fun other seen greater => least _ seen ((exact' _ seen).mpr greater))
      fun _ first => space_of_between format above.le first⟩

/-- `get_next_object` returns the visible object with the least key above the given one in the same space,
or nothing when there is none. -/
theorem getNextObject_isNext (chain : DeltaChain format) (space : ObjectSpace) (key : Bytes) :
    ∃ found, getNextObject format.codec chain.deltas space key = .ok found ∧
      ∀ answer, IsNext format chain.view space key answer ↔ answer = found := by
  obtain ⟨found, runs, isNext⟩ := exists_isNext chain space key
  exact ⟨found, runs, isNext.eq_iff fun _ _ => le_antisymm⟩

/-- A root with four objects in one space and one in another. -/
def shadowedRoot : StateDelta :=
  [1, 2, 3, 4].foldl (fun d key => d.put (KeyCodec.transparent.serialize ⟨{}, [key]⟩) [key])
    (StateDelta.put { backend := some {} } (KeyCodec.transparent.serialize ⟨{ zone := [1] }, [1]⟩) [5])

/-- A child that overwrites the second object and removes the third. -/
def shadowingChild : StateDelta :=
  (StateDelta.put { backend := some {}, revision := 1 } (KeyCodec.transparent.serialize ⟨{}, [2]⟩) [9]).remove
    (KeyCodec.transparent.serialize ⟨{}, [3]⟩)

theorem encoded_shadowing : ∀ d ∈ [shadowingChild, shadowedRoot], d.Encoded .transparent := by
  have parsed : ∀ d ∈ [shadowingChild, shadowedRoot], ∀ key ∈ d.objects.keys,
      (KeyCodec.transparent.parse key).map KeyCodec.transparent.serialize = some key := by
    decide +kernel
  intro d mem key value found
  have stored : key ∈ d.objects.keys := by
    rw [Std.ExtTreeMap.mem_keys, Std.ExtTreeMap.mem_iff_isSome_getElem?, ← StateDelta.get, found]
    rfl
  obtain ⟨dbKey, -, same⟩ := map_eq_some_iff.mp (parsed d mem key stored)
  exact ⟨dbKey, same.symm⟩

def shadowingChain : DeltaChain .transparent where
  deltas := [shadowingChild, shadowedRoot]
  present := cons_ne_nil _ _
  descending := by decide +kernel
  encoded := encoded_shadowing

/-- The overwritten object has its new value, the removed one is passed over, and the other space is not entered. -/
theorem getNextObject_isNext_shadowing :
    IsNext .transparent shadowingChain.view {} [1] (some ([9], [2])) ∧
      IsNext .transparent shadowingChain.view {} [2] (some ([4], [4])) ∧
      IsNext .transparent shadowingChain.view {} [4] none := by
  have isNext (key : Bytes) (answer : Option (Bytes × Bytes))
      (runs : getNextObject KeyCodec.transparent shadowingChain.deltas {} key = .ok answer) :
      IsNext .transparent shadowingChain.view {} key answer := by
    obtain ⟨found, runs', unique⟩ := getNextObject_isNext shadowingChain {} key
    exact (unique answer).mpr (Except.ok.inj (runs.symm.trans runs'))
  exact ⟨isNext _ _ rfl, isNext _ _ rfl, isNext _ _ rfl⟩

end Next

section Previous

variable {format : WireFormat} {chain : DeltaChain format} {start : List IteratorWrapper}

/-- The visible object with the greatest key below the given one in its space, if there is one. -/
def IsPrev (format : WireFormat) (view : View) (space : ObjectSpace) (key : Bytes) : Option (Bytes × Bytes) → Prop :=
  IsNearest (· < format.codec.serialize ⟨space, key⟩) (· ≥ ·) format view space

/-- Two settled iterators at one key are equal. -/
theorem equal_of_key {ahead ahead' : Bytes → Prop} (settled : Settled chain.deltas ahead index)
    (settled' : Settled chain.deltas ahead' start) {m m' : IteratorWrapper} (mem : m ∈ index) (mem' : m' ∈ start)
    (first : leading iteratorCompareLess index = some m) (first' : leading iteratorCompareLess start = some m')
    {entry entry' : Bytes × Bytes} {later later' : List (Bytes × Bytes)} (position : m.itr.rest = entry :: later)
    (position' : m'.itr.rest = entry' :: later') (clean : Clean chain.deltas m.revision entry.1)
    (clean' : Clean chain.deltas m'.revision entry'.1) :
    equal ⟨index, chain.deltas⟩ ⟨start, chain.deltas⟩ = decide (entry.1 = entry'.1) := by
  rw [equal, first, first']
  dsimp only
  rw [position, position']
  dsimp only
  by_cases same : entry.1 = entry'.1
  · obtain ⟨d, known, revision, entries⟩ := settled'.tracks.delta mem'
    obtain ⟨w, listed, revision', entries'⟩ := settled.tracks.wrapper known
    have stored : entry ∈ m.itr.entries := Cursor.mem_entries.mpr (.inr (position ▸ mem_cons_self))
    have stored' : entry' ∈ w.itr.entries := by
      rw [entries', entries]
      exact Cursor.mem_entries.mpr (.inr (position' ▸ mem_cons_self))
    rw [← revision, ← revision'] at clean'
    have equal := settled.tracks.eq_of_clean chain.descending mem listed stored stored' clean clean' same
    rw [equal, revision', revision, decide_eq_true rfl, Bool.true_and]
  · rw [decide_eq_false same, Bool.and_false]

/-- When the iterator is not at the first visible key, a decrement takes it to the greatest visible key
below the bound. -/
theorem decrement_of_lowerBound (settled : Settled chain.deltas (fun key => bound ≤ key) index) {lower : Bytes}
    (visible : (chain.view lower).isSome) (below : lower < bound) :
    ∃ index' m entry later, decrement ⟨index, chain.deltas⟩ = .ok ⟨index', chain.deltas⟩ ∧
      leading iteratorCompareLess index' = some m ∧ m.itr.rest = entry :: later ∧
      chain.view entry.1 = some entry.2 ∧ entry.1 < bound ∧
      ∀ other, (chain.view other).isSome → other < bound → other ≤ entry.1 := by
  obtain ⟨m, mem, first, leads, position⟩ := settled.position chain.present
  have belowHead {key : Bytes} (seen : (chain.view key).isSome) :
      Below (m.itr.rest.head?.map Prod.fst) key ↔ key < bound := by
    rcases position with last | ⟨entry, later, position, clean⟩
    · rw [last.1]
      have behind := settled.not_ahead chain.descending last.2 seen
      exact iff_of_true (fun head held => by contradiction) (not_le.mp behind)
    · obtain ⟨-, above, least⟩ := settled.least chain.descending mem leads position clean
      rw [position]
      constructor
      · intro less
        by_contra reaches
        exact absurd (less entry.1 rfl) (not_lt.mpr (least key seen (not_lt.mp reaches)))
      · rintro less _ ⟨⟩
        exact less.trans_le above
  obtain ⟨value, found⟩ := isSome_iff_exists.mp visible
  obtain ⟨w₀, known, stored, clean₀⟩ := (settled.tracks.findIn_eq_some_iff chain.descending).mp found
  obtain ⟨index', entry, decrements, stepsBack⟩ := decrement_spec chain.descending settled first leads known stored
    clean₀ ((belowHead visible).mpr below)
  obtain ⟨m', listed, first', clean', later, position'⟩ := stepsBack.first
  have seen : chain.view entry.1 = some entry.2 :=
    (stepsBack.tracks.findIn_eq_some_iff chain.descending).mpr
      ⟨m', listed, Cursor.mem_entries.mpr (.inr (position' ▸ mem_cons_self)), clean'⟩
  refine ⟨index', m', entry, later, decrements, first', position', seen, ?_, ?_⟩
  · exact (belowHead (isSome_iff_exists.mpr ⟨_, seen⟩)).mp stepsBack.below
  · intro other seen' less
    obtain ⟨value', found'⟩ := isSome_iff_exists.mp seen'
    obtain ⟨w, inside, stored', clean''⟩ := (stepsBack.tracks.findIn_eq_some_iff chain.descending).mp found'
    exact stepsBack.greatest w inside _ stored' clean'' ((belowHead seen').mpr less)

/-- The iterator is at the first visible key when nothing visible is below the bound. -/
theorem equal_start (settled : Settled chain.deltas (fun key => bound ≤ key) index)
    (settled' : Settled chain.deltas (fun _ => True) start) :
    (equal ⟨index, chain.deltas⟩ ⟨start, chain.deltas⟩ = true ∧
      ∀ key, (chain.view key).isSome → ¬ key < bound) ∨
    (equal ⟨index, chain.deltas⟩ ⟨start, chain.deltas⟩ = false ∧
      ∃ key, (chain.view key).isSome ∧ key < bound) := by
  obtain ⟨m, mem, first, leads, position⟩ := settled.position chain.present
  obtain ⟨m', mem', first', leads', position'⟩ := settled'.position chain.present
  rcases position' with last' | ⟨entry', later', position', clean'⟩
  · have nothing (key : Bytes) (seen : (chain.view key).isSome) : False :=
      settled'.not_ahead chain.descending last'.2 seen trivial
    rcases position with last | ⟨entry, later, position, clean⟩
    · refine .inl ⟨?_, fun key seen => (nothing key seen).elim⟩
      rw [equal, first, first']
      dsimp only
      rw [last.1, last'.1]
    · obtain ⟨seen, -⟩ := settled.least chain.descending mem leads position clean
      exact (nothing entry.1 (isSome_iff_exists.mpr ⟨_, seen⟩)).elim
  · obtain ⟨seen', -, least'⟩ := settled'.least chain.descending mem' leads' position' clean'
    have visible' : (chain.view entry'.1).isSome := isSome_iff_exists.mpr ⟨_, seen'⟩
    rcases position with last | ⟨entry, later, position, clean⟩
    · refine .inr ⟨?_, entry'.1, visible', not_le.mp (settled.not_ahead chain.descending last.2 visible')⟩
      rw [equal, first, first']
      dsimp only
      rw [last.1, position']
    · obtain ⟨seen, above, least⟩ := settled.least chain.descending mem leads position clean
      rw [equal_of_key settled settled' mem mem' first first' position position' clean clean']
      by_cases same : entry.1 = entry'.1
      · refine .inl ⟨decide_eq_true same, fun key visible less => ?_⟩
        have lowest := least' key visible trivial
        rw [← same] at lowest
        exact absurd (less.trans_le above) (not_lt.mpr lowest)
      · refine .inr ⟨decide_eq_false same, entry'.1, visible', ?_⟩
        by_contra reaches
        have lowest := least' entry.1 (isSome_iff_exists.mpr ⟨_, seen⟩) trivial
        exact same (le_antisymm (least entry'.1 visible' (not_lt.mp reaches)) lowest)

/-- The search ends without an error at a previous object. -/
theorem exists_isPrev (chain : DeltaChain format) (space : ObjectSpace) (key : Bytes) :
    ∃ found, getPrevObject format.codec chain.deltas space key = .ok found ∧
      IsPrev format chain.view space key found := by
  obtain ⟨index, begins, settled⟩ := lowerBound_settled chain.descending (format.codec.serialize ⟨space, key⟩)
  obtain ⟨start, starts, settled'⟩ := start_settled chain.descending
  have unfolded : getPrevObject format.codec chain.deltas space key =
      if equal ⟨index, chain.deltas⟩ ⟨start, chain.deltas⟩ then pure none
      else (do
        let it ← decrement ⟨index, chain.deltas⟩
        objectAt format.codec space it) := by
    rw [getPrevObject, begins]
    change (MergeIterator.start chain.deltas >>= _) = _
    rw [starts]
    rfl
  rw [unfolded]
  rcases equal_start settled settled' with ⟨atStart, nothing⟩ | ⟨notAtStart, lower, visible, below⟩
  · refine ⟨none, ?_, fun other seen => nothing _ seen⟩
    rw [atStart]
    rfl
  · obtain ⟨index', m, entry, later, decrements, first, position, found, less, greatest⟩ :=
      decrement_of_lowerBound settled visible below
    obtain ⟨dbKey, named⟩ := chain.serialized _ (isSome_iff_exists.mpr ⟨_, found⟩)
    rw [notAtStart, if_neg Bool.false_ne_true, decrements]
    rw [named] at found less greatest
    exact ⟨_, objectAt_eq first position named space, isNearest_of_key found less greatest
      fun _ first => space_of_between format first less.le⟩

/-- `get_prev_object` returns the visible object with the greatest key below the given one in the same
space, or nothing when there is none. -/
theorem getPrevObject_isPrev (chain : DeltaChain format) (space : ObjectSpace) (key : Bytes) :
    ∃ found, getPrevObject format.codec chain.deltas space key = .ok found ∧
      ∀ answer, IsPrev format chain.view space key answer ↔ answer = found := by
  obtain ⟨found, runs, isPrev⟩ := exists_isPrev chain space key
  exact ⟨found, runs, isPrev.eq_iff fun _ _ above below => le_antisymm below above⟩

/-- From a key past the last one, and across the removed object to the overwritten one. -/
theorem getPrevObject_isPrev_shadowing :
    IsPrev .transparent shadowingChain.view { zone := [1] } [2] (some ([5], [1])) ∧
      IsPrev .transparent shadowingChain.view {} [4] (some ([9], [2])) ∧
      IsPrev .transparent shadowingChain.view { zone := [1] } [1] none := by
  have isPrev (space : ObjectSpace) (key : Bytes) (answer : Option (Bytes × Bytes))
      (runs : getPrevObject KeyCodec.transparent shadowingChain.deltas space key = .ok answer) :
      IsPrev .transparent shadowingChain.view space key answer := by
    obtain ⟨found, runs', unique⟩ := getPrevObject_isPrev shadowingChain space key
    exact (unique answer).mpr (Except.ok.inj (runs.symm.trans runs'))
  exact ⟨isPrev _ _ _ rfl, isPrev _ _ _ rfl, isPrev _ _ _ rfl⟩

end Previous

section Lineage

variable {format : WireFormat} {h : Heap} {p : ℕ}

/-- Revisions grow by one from parent to child. -/
theorem IndexForest.lineage_descending {index : List ℕ} (forest : IndexForest h index) (known : p ∈ index) :
    Descending (h.lineage p) ∧ ∀ d ∈ h.lineage p, d.revision ≤ h.revision p := by
  induction p using Nat.strong_induction_on with
  | _ p ih =>
    cases up : (h.cell p).parent with
    | none =>
      rw [LinkedStore.lineage, h.path_of_none up, map_singleton]
      refine ⟨pairwise_singleton _ _, fun d mem => ?_⟩
      rw [mem_singleton.mp mem]
      exact le_rfl
    | some q =>
      obtain ⟨mem, next⟩ := forest.parents p known q up
      obtain ⟨descending, bounded⟩ := ih q (h.descending p q up) mem
      have below (d : StateDelta) (inside : d ∈ h.lineage q) : d.revision < (h.cell p).revision := by
        have limit := bounded d inside
        change (h.cell p).revision = h.revision q + 1 at next
        omega
      rw [h.lineage_of_some up]
      refine ⟨pairwise_cons.mpr ⟨below, descending⟩, fun d inside => ?_⟩
      rcases mem_cons.mp inside with rfl | above
      · exact le_rfl
      · exact (below d above).le

/-- The chain of an indexed node. -/
def Database.WellFormed.deltaChain {db : Database} (wf : db.WellFormed) (known : p ∈ db.index)
    (encoded : ∀ d ∈ db.heap.lineage p, d.Encoded format) : DeltaChain format where
  deltas := db.heap.lineage p
  present := by
    rw [LinkedStore.lineage, Ne, List.map_eq_nil_iff]
    exact List.ne_nil_of_mem (db.heap.self_mem_path p)
  descending := (wf.tree.forest.lineage_descending known).1
  encoded := encoded

theorem sorted_visibleKeys (h : Heap) (p : ℕ) : (h.visibleKeys p).Pairwise (· ≤ ·) := by
  have total : Std.Total fun left right : Bytes => (compare left right).isLE = true :=
    ⟨fun left right => by simp only [ByteOrder.isLE_compare_iff]; exact le_total left right⟩
  have trans : IsTrans Bytes fun left right => (compare left right).isLE = true :=
    ⟨fun left middle right => by simp only [ByteOrder.isLE_compare_iff]; exact le_trans⟩
  refine (pairwise_insertionSort _ _).imp fun {left right} less => ?_
  exact (ByteOrder.isLE_compare_iff left right).mp less

section Sorted

variable (encoded : ∀ key, (h.find p key).isSome → ∃ dbKey, key = format.codec.serialize dbKey) (space : ObjectSpace)
  (key : Bytes)

include encoded

/-- The sorted list of what a node shows has the same successors. -/
theorem Heap.isNext_getNextObject : IsNext format (h.find p) space key (h.getNextObject format.codec p space key) := by
  refine isNearest_neighbour le_refl (sorted_visibleKeys h p) (fun _ => h.mem_visibleKeys)
    (fun other => ?_) (fun _ _ above first => space_of_between format above.le first) encoded
  rw [beq_iff_eq, ByteOrder.compare_eq_lt_iff]

theorem Heap.isPrev_getPrevObject : IsPrev format (h.find p) space key (h.getPrevObject format.codec p space key) := by
  refine isNearest_neighbour le_refl (pairwise_reverse.mpr (sorted_visibleKeys h p))
    (fun _ => mem_reverse.trans h.mem_visibleKeys) (fun other => ?_)
    (fun _ _ below first => space_of_between format first below.le) encoded
  rw [beq_iff_eq, ByteOrder.compare_eq_lt_iff]

end Sorted

section Refinement

variable {db : Database} (wf : db.WellFormed) (known : p ∈ db.index)
  (encoded : ∀ d ∈ db.heap.lineage p, d.Encoded format)

include wf known encoded

/-- The merged iteration over an indexed node's deltas finds what the sorted list of its keys does. -/
theorem getNextObject_lineage (space : ObjectSpace) (key : Bytes) :
    getNextObject format.codec (db.heap.lineage p) space key =
      .ok (db.heap.getNextObject format.codec p space key) := by
  let chain := wf.deltaChain known encoded
  obtain ⟨found, runs, isNext⟩ := exists_isNext chain space key
  rw [← isNext.unique (fun _ _ => le_antisymm) (db.heap.isNext_getNextObject chain.serialized space key)]
  exact runs

theorem getPrevObject_lineage (space : ObjectSpace) (key : Bytes) :
    getPrevObject format.codec (db.heap.lineage p) space key =
      .ok (db.heap.getPrevObject format.codec p space key) := by
  let chain := wf.deltaChain known encoded
  obtain ⟨found, runs, isPrev⟩ := exists_isPrev chain space key
  rw [← isPrev.unique (fun _ _ above below => le_antisymm below above)
    (db.heap.isPrev_getPrevObject chain.serialized space key)]
  exact runs

end Refinement

end Lineage

end Teleno.StateDb
