import Teleno.StateDb.MergeOrder

/-! # Moving the merged iteration back

`operator--` brings every cursor back below the position and then back over dirty entries. A cursor that
stops at its first entry may stand at or above the position, or at a dirty entry; such cursors are passed
over. The greatest of the others is the new position, and all cursors are brought forward to it.
-/

namespace Teleno.StateDb

open Library IteratorWrapper MergeIterator Cursor List Option
open scoped Library.ByteOrder

variable {deltas : List StateDelta} {headKey : Option Bytes} {index : List IteratorWrapper} {w : IteratorWrapper}

/-- Below the head key, if there is one. -/
def Below (headKey : Option Bytes) (key : Bytes) : Prop := ∀ head ∈ headKey, key < head

/-- If some clean entry of the delta is below the head key, the cursor stands at the greatest of them. -/
def AtGreatest (deltas : List StateDelta) (headKey : Option Bytes) (w : IteratorWrapper) : Prop :=
  ∀ entry ∈ w.itr.entries, Clean deltas w.revision entry.1 → Below headKey entry.1 →
    ∃ here later, w.itr.rest = here :: later ∧ entry.1 ≤ here.1 ∧ Clean deltas w.revision here.1 ∧
      Below headKey here.1

section Rewind

variable {c : Cursor Bytes Bytes}

/-- A decrement from the end. -/
theorem retreat_of_end (present : c.entries ≠ []) (finished : c.rest = []) :
    ∃ entry done, retreat c = .ok ⟨done, [entry]⟩ ∧ entries ⟨done, [entry]⟩ = c.entries := by
  rw [entries, finished, append_nil, Ne, reverse_eq_nil_iff] at present
  obtain ⟨entry, done, passed⟩ := exists_cons_of_ne_nil present
  refine ⟨entry, done, ?_, ?_⟩
  · rw [retreat, Cursor.prev, passed, finished]
    rfl
  · rw [entries, entries, passed, finished, reverse_cons, append_nil]

/-- The cursor stops below the head key or at its first entry. -/
theorem rewindBelow_spec (present : c.entries ≠ []) (beyond : ∀ entry ∈ c.rest, ¬ Below headKey entry.1) :
    ∃ c', rewindBelow headKey c = .ok c' ∧ c'.entries = c.entries ∧
      ∃ here later, c'.rest = here :: later ∧ (c'.done = [] ∨ Below headKey here.1) ∧
        ∀ entry ∈ later, ¬ Below headKey entry.1 := by
  cases headKey with
  | none =>
    have finished : c.rest = [] :=
      eq_nil_iff_forall_not_mem.mpr fun entry mem => beyond entry mem fun head held => by contradiction
    obtain ⟨entry, done, retreats, entries⟩ := retreat_of_end present finished
    exact ⟨_, retreats, entries, entry, [], rfl, .inr fun head held => by contradiction,
      fun other mem => by contradiction⟩
  | some head =>
    have stepped : ∃ c₁, leaveEnd c = .ok c₁ ∧
        c₁.entries = c.entries ∧ ∃ here later, c₁.rest = here :: later ∧
          ∀ entry ∈ later, ¬ Below (some head) entry.1 := by
      cases position : c.rest with
      | nil =>
        obtain ⟨entry, done, retreats, entries⟩ := retreat_of_end present position
        refine ⟨_, ?_, entries, entry, [], rfl, fun other mem => by contradiction⟩
        rw [leaveEnd, Cursor.valid, position, isEmpty_nil, Bool.not_true, if_neg Bool.false_ne_true]
        exact retreats
      | cons here later =>
        refine ⟨c, ?_, rfl, here, later, position, ?_⟩
        · rw [leaveEnd, Cursor.valid, position, isEmpty_cons, Bool.not_false, if_pos rfl]
          rfl
        · intro entry mem
          exact beyond entry (position ▸ mem_cons_of_mem here mem)
    obtain ⟨c₁, steps, entries, here, later, position, beyond'⟩ := stepped
    obtain ⟨entries', ⟨here', later', position', -, stopped, behind⟩, -⟩ :=
      backWhile_spec (fun key => !decide (key < head)) c₁.done (here :: later) (cons_ne_nil _ _)
    refine ⟨_, ?_, ?_, here', later', position', ?_, ?_⟩
    · rw [rewindBelow, steps]
      change backBelow head c₁ = _
      rw [backBelow, position]
      rfl
    · rw [entries', ← position, ← entries]
      rfl
    · refine stopped.imp_right fun less => ?_
      rintro _ ⟨⟩
      rw [Bool.not_eq_false', decide_eq_true_iff] at less
      exact less
    · intro entry mem below
      rcases behind entry mem with inside | reached
      · exact beyond' entry inside below
      · rw [Bool.not_eq_true', decide_eq_false_iff_not] at reached
        exact reached (below head rfl)

/-- One cursor after its round of the loop. -/
theorem rewind_spec (deltas : List StateDelta) (ordered : Cursor.Ordered w.itr.entries)
    (beyond : ∀ entry ∈ w.itr.rest, ¬ Below headKey entry.1) :
    ∃ w', rewind deltas headKey w = .ok w' ∧ (w'.revision = w.revision ∧ w'.itr.entries = w.itr.entries) ∧
      AtGreatest deltas headKey w' := by
  rw [rewind]
  split_ifs with empty
  · refine ⟨w, rfl, ⟨rfl, rfl⟩, ?_⟩
    intro entry mem
    rw [length_eq_zero_iff.mp empty] at mem
    contradiction
  · have present : w.itr.entries ≠ [] := fun none => empty (length_eq_zero_iff.mpr none)
    obtain ⟨c, rewinds, entries, here, later, position, stopped, beyond'⟩ := rewindBelow_spec present beyond
    obtain ⟨entries', ⟨here', later', position', reached, stopped', behind⟩, suffix⟩ :=
      backWhile_spec (isDirty deltas w.revision) c.done c.rest (position ▸ cons_ne_nil _ _)
    have same : (backWhile (isDirty deltas w.revision) c.done c.rest).entries = w.itr.entries := entries'.trans entries
    refine ⟨{ w with itr := .backWhile (isDirty deltas w.revision) c.done c.rest }, ?_, ⟨rfl, same⟩, ?_⟩
    · rw [rewinds]
      rfl
    · intro entry mem clean below
      dsimp only at mem clean ⊢
      refine ⟨here', later', position', ?_⟩
      have ordered' : Cursor.Ordered (backWhile (isDirty deltas w.revision) c.done c.rest).entries := by
        rw [same]
        exact ordered
      have notLater : entry ∉ later' := by
        intro inside
        rcases behind entry inside with passed | dirty
        · rw [position, tail_cons] at passed
          exact beyond' entry passed below
        · rw [Clean, dirty] at clean
          contradiction
      rcases mem_entries.mp mem with before | after
      · have notFirst : (backWhile (isDirty deltas w.revision) c.done c.rest).done ≠ [] := ne_nil_of_mem before
        have less : entry.1 < here'.1 := lt_of_mem_done ordered' before (position' ▸ mem_cons_self)
        have notFirst' : c.done ≠ [] := by
          intro none
          exact notFirst (suffix_nil.mp (none ▸ suffix))
        have below' := stopped.resolve_left notFirst'
        refine ⟨less.le, stopped'.resolve_left notFirst, ?_⟩
        rcases reached with earlier | start
        · have further : here'.1 < here.1 := lt_of_mem_done (entries ▸ ordered) earlier (position ▸ mem_cons_self)
          exact fun head held => further.trans (below' head held)
        · rw [position] at start
          rw [← some.inj start]
          exact below'
      · rw [position', mem_cons] at after
        obtain rfl := after.resolve_right notLater
        exact ⟨le_rfl, clean, below⟩

theorem rewindAll_spec (deltas : List StateDelta) (ordered : ∀ w ∈ index, Cursor.Ordered w.itr.entries)
    (beyond : ∀ w ∈ index, ∀ entry ∈ w.itr.rest, ¬ Below headKey entry.1) :
    ∃ index', rewindAll deltas headKey index = .ok index' ∧
      Forall₂ (fun w w' => w'.revision = w.revision ∧ w'.itr.entries = w.itr.entries) index index' ∧
      ∀ w' ∈ index', AtGreatest deltas headKey w' := by
  induction index with
  | nil => exact ⟨[], rfl, .nil, fun w mem => by contradiction⟩
  | cons w index ih =>
    obtain ⟨w', rewinds, same, greatest⟩ :=
      rewind_spec deltas (ordered w mem_cons_self) (beyond w mem_cons_self)
    obtain ⟨index', rest, same', greatest'⟩ := ih (fun other mem => ordered other (mem_cons_of_mem w mem))
      (fun other mem => beyond other (mem_cons_of_mem w mem))
    refine ⟨w' :: index', ?_, .cons same same', ?_⟩
    · rw [rewindAll, rewinds, rest]
      rfl
    · intro other mem
      rcases mem_cons.mp mem with rfl | inside
      · exact greatest
      · exact greatest' other inside

end Rewind

section Realign

/-- The new position is clean, below the head key, and no clean entry lies between the two. -/
structure StepsBack (deltas : List StateDelta) (headKey : Option Bytes) (index : List IteratorWrapper)
    (entry : Bytes × Bytes) : Prop where
  tracks : Tracks deltas index
  first : ∃ m ∈ index, leading iteratorCompareLess index = some m ∧ Clean deltas m.revision entry.1 ∧
    ∃ later, m.itr.rest = entry :: later
  below : Below headKey entry.1
  greatest : ∀ w ∈ index, ∀ other ∈ w.itr.entries, Clean deltas w.revision other.1 → Below headKey other.1 →
    other.1 ≤ entry.1

theorem isPassed_eq_false {here : Bytes × Bytes} {later : List (Bytes × Bytes)}
    (position : w.itr.rest = here :: later) :
    isPassed deltas headKey w = false ↔ Clean deltas w.revision here.1 ∧ Below headKey here.1 := by
  rw [isPassed, position, head?_cons, any_some, Bool.or_eq_false_iff]
  refine and_congr_right fun _ => ?_
  cases headKey with
  | none => exact iff_of_true rfl fun head held => by contradiction
  | some head =>
    rw [any_some, Bool.not_eq_false', decide_eq_true_iff]
    constructor
    · rintro less _ ⟨⟩
      exact less
    · exact fun below => below head rfl

variable {w₀ : IteratorWrapper} {entry₀ : Bytes × Bytes}

/-- The walk along the reverse order ends at the greatest clean entry below the head key. -/
theorem leastItr_spec (greatest : ∀ w ∈ index, AtGreatest deltas headKey w) (mem : w₀ ∈ index)
    (stored : entry₀ ∈ w₀.itr.entries) (clean : Clean deltas w₀.revision entry₀.1) (below : Below headKey entry₀.1) :
    ∃ m ∈ index, leastItr deltas headKey index = some m ∧ ∃ entry later, m.itr.rest = entry :: later ∧
      Clean deltas m.revision entry.1 ∧ Below headKey entry.1 ∧
      ∀ w ∈ index, ∀ other ∈ w.itr.entries, Clean deltas w.revision other.1 → Below headKey other.1 →
        other.1 ≤ entry.1 := by
  have stays {w : IteratorWrapper} (inside : w ∈ index) {here : Bytes × Bytes} {later : List (Bytes × Bytes)}
      (position : w.itr.rest = here :: later) (clean : Clean deltas w.revision here.1)
      (below : Below headKey here.1) : w ∈ index.filter fun w => !isPassed deltas headKey w := by
    rw [mem_filter, Bool.not_eq_true']
    exact ⟨inside, (isPassed_eq_false position).mpr ⟨clean, below⟩⟩
  obtain ⟨here₀, later₀, position₀, -, clean₀, below₀⟩ := greatest w₀ mem entry₀ stored clean below
  have kept := stays mem position₀ clean₀ below₀
  obtain ⟨m, listed, found, leads⟩ := leading_spec linear_less.flip (ne_nil_of_mem kept)
  obtain ⟨entry, later, position, -⟩ := leads w₀ kept here₀ later₀ position₀
  rw [mem_filter, Bool.not_eq_true', isPassed_eq_false position] at listed
  refine ⟨m, listed.1, found, entry, later, position, listed.2.1, listed.2.2, ?_⟩
  intro w inside other stored' clean' below'
  obtain ⟨here, later', position', above, clean'', below''⟩ := greatest w inside other stored' clean' below'
  obtain ⟨entry', later'', position'', atop, -⟩ :=
    leads w (stays inside position' clean'' below'') here later' position'
  rw [position, cons.injEq] at position''
  rw [← position''.1, decide_eq_false_iff_not, not_lt] at atop
  exact above.trans atop

/-- The loop looks at the first wrapper, which is valid as long as some wrapper is. -/
theorem behind_spec {entry : Bytes × Bytes} (held : ∃ g ∈ index, entry ∈ g.itr.rest) (bound : Bytes) :
    ∃ m ∈ index, leading iteratorCompareLess index = some m ∧
      (∀ w ∈ index, Leads (fun left right => decide (left < right)) m w) ∧
      ∃ here later, m.itr.rest = here :: later ∧
        behind bound index = .ok (if here.1 < bound then some m else none) := by
  obtain ⟨g, mem, inside⟩ := held
  obtain ⟨m, listed, found, leads⟩ := leading_spec linear_less (ne_nil_of_mem mem)
  obtain ⟨entry', later', split'⟩ := exists_cons_of_ne_nil (ne_nil_of_mem inside)
  obtain ⟨here, later, position, -⟩ := leads g mem entry' later' split'
  refine ⟨m, listed, found, leads, here, later, position, ?_⟩
  rw [behind, iteratorCompareLess, found]
  dsimp only
  rw [IteratorWrapper.entry, position]
  rfl

/-- The cursors are brought forward until none is below the new position. -/
theorem catchUp_spec (descending : Descending deltas) (tracks : Tracks deltas index) {entry : Bytes × Bytes}
    (held : ∃ g ∈ index, entry ∈ g.itr.rest) {fuel : ℕ} (enough : remaining index ≤ fuel) :
    ∃ index', catchUp entry.1 fuel index = .ok index' ∧ Moves (fun _ key => key < entry.1) index index' ∧
      ∃ m ∈ index', leading iteratorCompareLess index' = some m ∧
        (∀ w ∈ index', Leads (fun left right => decide (left < right)) m w) ∧
        ∃ here later, m.itr.rest = here :: later ∧ entry.1 ≤ here.1 := by
  induction fuel generalizing index with
  | zero =>
    obtain ⟨g, mem, inside⟩ := held
    obtain ⟨entry', later', split'⟩ := exists_cons_of_ne_nil (ne_nil_of_mem inside)
    exact absurd (remaining_pos mem split') (not_lt.mpr enough)
  | succ fuel ih =>
    obtain ⟨m, listed, found, leads, here, later, position, looked⟩ := behind_spec held entry.1
    rw [catchUp, looked]
    by_cases less : here.1 < entry.1
    · have advanced : Moves (fun _ key => key < entry.1) index (advance index m) ∧ _ :=
        moves_advance tracks descending listed position less
      obtain ⟨moves, fewer⟩ := advanced
      have held' : ∃ g ∈ advance index m, entry ∈ g.itr.rest := by
        obtain ⟨g, mem, inside⟩ := held
        obtain ⟨g', mem', -, skips⟩ := moves.target mem
        exact ⟨g', mem', skips.mem_rest inside (lt_irrefl _)⟩
      obtain ⟨index', caught, moves', rest⟩ := ih (moves.tracks tracks) held' (by omega)
      refine ⟨index', ?_, moves.trans moves', rest⟩
      rw [if_pos less]
      exact caught
    · refine ⟨index, ?_, .refl _ _, m, listed, found, leads, here, later, position, not_lt.mp less⟩
      rw [if_neg less]
      rfl

/-- After the cursors have been brought forward, the first one stands at the new position. -/
theorem realign_spec (descending : Descending deltas) (tracks : Tracks deltas index)
    (greatest : ∀ w ∈ index, AtGreatest deltas headKey w) (mem : w₀ ∈ index) (stored : entry₀ ∈ w₀.itr.entries)
    (clean : Clean deltas w₀.revision entry₀.1) (below : Below headKey entry₀.1) :
    ∃ index' entry, realign deltas headKey index = .ok index' ∧ StepsBack deltas headKey index' entry := by
  obtain ⟨g, known, least, entry, later, position, clean', below', top⟩ := leastItr_spec greatest mem stored clean below
  have ahead : entry ∈ g.itr.rest := position ▸ mem_cons_self
  obtain ⟨index', caught, moves, m, listed, found, leads, here, later', position', above⟩ :=
    catchUp_spec descending tracks ⟨g, known, ahead⟩ le_rfl
  have tracks' := moves.tracks tracks
  obtain ⟨g', known', revision, skips⟩ := moves.target known
  have ahead' := skips.mem_rest ahead (lt_irrefl _)
  obtain ⟨next, later'', split'⟩ := exists_cons_of_ne_nil (ne_nil_of_mem ahead')
  obtain ⟨here', rest', position'', atop, tie⟩ := leads g' known' next later'' split'
  rw [position', cons.injEq] at position''
  obtain ⟨rfl, rfl⟩ := position''
  rw [decide_eq_false_iff_not, not_lt] at atop
  have bound := le_of_mem_rest (tracks'.ordered known') split' ahead'
  have same : here.1 = entry.1 := le_antisymm (atop.trans bound) above
  have inside : here ∈ m.itr.entries := mem_entries.mpr (.inr (position' ▸ mem_cons_self))
  have inside' : entry ∈ g'.itr.entries := mem_entries.mpr (.inr ahead')
  rw [← revision] at clean'
  have later : ¬ g'.revision < m.revision := tracks'.not_lt_of_clean descending listed inside (same.symm ▸ clean')
  have equal : m = g' := tracks'.eq_of_revision descending listed known'
    (le_antisymm (not_lt.mp later) (tie (le_antisymm atop (same ▸ bound))))
  subst equal
  obtain rfl : here = entry := (tracks'.ordered listed).eq_of_key inside inside' same
  have settled : dirtyFirst deltas index' = none := by
    rw [dirtyFirst, found, filter_eq_none_iff]
    rintro _ ⟨⟩
    rw [position', head?_cons, any_some, Bool.not_eq_true]
    exact clean'
  refine ⟨index', here, ?_, tracks', ⟨m, listed, found, clean', later', position'⟩, below', ?_⟩
  · rw [realign, least, elim_some, IteratorWrapper.entry, position]
    change (catchUp here.1 (remaining index) index >>= _) = _
    rw [caught]
    exact resolveConflicts_of_clean settled _
  · intro w' mem' other stored' clean'' below''
    obtain ⟨w, source, revision', skips'⟩ := moves.source mem'
    rw [skips'.entries_eq] at stored'
    exact top w source other stored' (revision' ▸ clean'') below''

/-- One decrement of a settled iterator, when there is a clean entry behind it. -/
theorem decrement_spec (descending : Descending deltas) {ahead : Bytes → Prop} (settled : Settled deltas ahead index)
    {m : IteratorWrapper} (first : leading iteratorCompareLess index = some m)
    (leads : ∀ w ∈ index, Leads (fun left right => decide (left < right)) m w) (mem : w₀ ∈ index)
    (stored : entry₀ ∈ w₀.itr.entries) (clean : Clean deltas w₀.revision entry₀.1)
    (below : Below (m.itr.rest.head?.map Prod.fst) entry₀.1) :
    ∃ index' entry, decrement ⟨index, deltas⟩ = .ok ⟨index', deltas⟩ ∧
      StepsBack deltas (m.itr.rest.head?.map Prod.fst) index' entry := by
  have headKey : MergeIterator.headKey ⟨index, deltas⟩ = m.itr.rest.head?.map Prod.fst := by
    rw [MergeIterator.headKey, first]
    rfl
  have beyond : ∀ w ∈ index, ∀ entry ∈ w.itr.rest, ¬ Below (m.itr.rest.head?.map Prod.fst) entry.1 := by
    intro w inside entry rest less
    obtain ⟨next, later, split'⟩ := exists_cons_of_ne_nil (ne_nil_of_mem rest)
    obtain ⟨here, later', position, above, -⟩ := leads w inside next later split'
    rw [position] at less
    have bound := le_of_mem_rest (settled.tracks.ordered inside) split' rest
    rw [decide_eq_false_iff_not, not_lt] at above
    exact absurd (less here.1 rfl) (not_lt.mpr (above.trans bound))
  obtain ⟨rewound, rewinds, same, greatest⟩ :=
    rewindAll_spec deltas (fun w inside => settled.tracks.ordered inside) beyond
  have tracks := settled.tracks.of_forall₂ same
  obtain ⟨w₁, member₁, stored₁, clean₁⟩ : ∃ w₁ ∈ rewound, entry₀ ∈ w₁.itr.entries ∧
      Clean deltas w₁.revision entry₀.1 := by
    have found : findIn deltas entry₀.1 = some entry₀.2 :=
      (settled.tracks.findIn_eq_some_iff descending).mpr ⟨w₀, mem, stored, clean⟩
    exact (tracks.findIn_eq_some_iff descending).mp found
  rw [decrement]
  dsimp only
  rw [headKey, rewinds]
  by_cases several : 1 < deltas.length
  · obtain ⟨index', entry, realigns, stepsBack⟩ := realign_spec descending tracks greatest member₁ stored₁ clean₁ below
    refine ⟨index', entry, ?_, stepsBack⟩
    change ite (1 < deltas.length) _ _ = _
    rw [if_pos several, realigns]
    rfl
  · have alone : rewound = [w₁] := by
      have lengths := congrArg length tracks
      rw [length_map, length_map] at lengths
      obtain ⟨w, one⟩ := length_eq_one_iff.mp (le_antisymm (by omega) (length_pos_of_mem member₁))
      rw [one, mem_singleton] at member₁
      rw [one, member₁]
    obtain ⟨here, later, position, -, clean', below'⟩ := greatest w₁ member₁ entry₀ stored₁ clean₁ below
    refine ⟨rewound, here, ?_, tracks, ⟨w₁, member₁, ?_, clean', later, position⟩, below', ?_⟩
    · change ite (1 < deltas.length) _ _ = _
      rw [if_neg several]
      rfl
    · rw [alone]
      rfl
    · intro w inside other stored' clean'' below''
      obtain ⟨here', later', position', above, -⟩ := greatest w inside other stored' clean'' below''
      rw [alone, mem_singleton] at inside
      rw [inside, position, cons.injEq] at position'
      rw [position'.1]
      exact above

end Realign

end Teleno.StateDb
