import Mathlib.Algebra.Order.BigOperators.Group.List
import Mathlib.Algebra.Order.Group.Nat
import Teleno.Library.ByteOrder
import Teleno.StateDb.MergeIterator

/-! # Where the merged iteration stands

An entry is clean when no later delta has written or removed its key; the clean entries are what a
lookup finds. The moves of the merge iterator keep track of the clean entries that are still ahead: a
settled iterator stands at the least of them. Moving back brings every cursor to its greatest clean
entry below the position, and the greatest of these becomes the new position.
-/

namespace Teleno.StateDb

open Library IteratorWrapper MergeIterator Cursor List Bool
open scoped Library.ByteOrder

section Leading

/-- A strict linear order, decided. -/
structure Linear (less : Bytes → Bytes → Bool) : Prop where
  asymm : ∀ left right, less left right = true → less right left = false
  trans : ∀ left middle right, less middle left = false → less right middle = false → less right left = false
  antisymm : ∀ left right, less left right = false → less right left = false → left = right

variable {less : Bytes → Bytes → Bool} {m w w' : IteratorWrapper}

theorem Linear.irrefl (linear : Linear less) (key : Bytes) : less key key = false := by
  cases self : less key key with
  | false => rfl
  | true => exact self.symm.trans (linear.asymm key key self)

/-- The opposite order. -/
theorem Linear.flip (linear : Linear less) : Linear fun left right => less right left where
  asymm left right := linear.asymm right left
  trans left middle right upper lower := linear.trans right middle left lower upper
  antisymm left right upper lower := linear.antisymm left right lower upper

theorem linear_less : Linear fun left right => decide (left < right) where
  asymm left right less := decide_eq_false (of_decide_eq_true less).asymm
  trans left middle right upper lower := by
    rw [decide_eq_false_iff_not, not_lt] at upper lower ⊢
    exact upper.trans lower
  antisymm left right upper lower := by
    rw [decide_eq_false_iff_not, not_lt] at upper lower
    exact le_antisymm lower upper

/-- `m` is not behind `w` in the order of an index. -/
def Leads (less : Bytes → Bytes → Bool) (m w : IteratorWrapper) : Prop :=
  ∀ entry later, w.itr.rest = entry :: later → ∃ entry' later', m.itr.rest = entry' :: later' ∧
    less entry.1 entry'.1 = false ∧ (entry'.1 = entry.1 → w.revision ≤ m.revision)

theorem Leads.trans (linear : Linear less) (first : Leads less m w) (second : Leads less w w') : Leads less m w' := by
  intro entry later position
  obtain ⟨entry', later', position', above, tie⟩ := second entry later position
  obtain ⟨entry'', later'', position'', above', tie'⟩ := first entry' later' position'
  refine ⟨entry'', later'', position'', linear.trans _ _ _ above' above, ?_⟩
  intro same
  rw [same] at above'
  have equal := linear.antisymm _ _ above' above
  exact (tie equal).trans (tie' (same.trans equal.symm))

theorem Leads.refl (linear : Linear less) (w : IteratorWrapper) : Leads less w w := by
  intro entry later position
  exact ⟨entry, later, position, linear.irrefl _, fun _ => le_rfl⟩

theorem precedes_of_valid {entry entry' : Bytes × Bytes} {later later' : List (Bytes × Bytes)}
    (position : m.itr.rest = entry :: later) (position' : w.itr.rest = entry' :: later') :
    precedes (compareValid less) m w =
      (less entry.1 entry'.1 || (!less entry'.1 entry.1 && decide (w.revision < m.revision))) := by
  rw [precedes, compareValid, compareValid, position, position']

theorem precedes_of_invalid {entry : Bytes × Bytes} {later : List (Bytes × Bytes)} (position : m.itr.rest = [])
    (position' : w.itr.rest = entry :: later) :
    precedes (compareValid less) m w = false ∧ precedes (compareValid less) w m = true := by
  rw [precedes, precedes, compareValid, compareValid, position, position']
  exact ⟨rfl, rfl⟩

/-- The order decides between two wrappers. -/
theorem leads_of_precedes (linear : Linear less) (first : precedes (compareValid less) m w = true) :
    Leads less m w := by
  intro entry later position
  cases own : m.itr.rest with
  | nil =>
    rw [(precedes_of_invalid own position).1] at first
    contradiction
  | cons entry' later' =>
    rw [precedes_of_valid own position] at first
    refine ⟨entry', later', rfl, ?_⟩
    cases forward : less entry'.1 entry.1 with
    | true =>
      have backward := linear.asymm _ _ forward
      refine ⟨backward, fun same => ?_⟩
      rw [same] at forward backward
      rw [forward] at backward
      contradiction
    | false =>
      rw [forward, Bool.false_or, Bool.and_eq_true, Bool.not_eq_true', decide_eq_true_iff] at first
      exact ⟨first.1, fun _ => first.2.le⟩

theorem leads_of_not_precedes (linear : Linear less) (first : precedes (compareValid less) m w = false) :
    Leads less w m := by
  intro entry later position
  cases own : w.itr.rest with
  | nil =>
    rw [(precedes_of_invalid own position).2] at first
    contradiction
  | cons entry' later' =>
    rw [precedes_of_valid position own, or_eq_false_iff] at first
    refine ⟨entry', later', rfl, first.1, fun same => ?_⟩
    have tie := first.2
    rw [same, ← same, linear.irrefl, Bool.not_false, Bool.true_and, decide_eq_false_iff_not, not_lt] at tie
    exact tie

/-- The first wrapper of an index leads all the others. -/
theorem leading_spec (linear : Linear less) {index : List IteratorWrapper} (present : index ≠ []) :
    ∃ m ∈ index, leading (compareValid less) index = some m ∧ ∀ w ∈ index, Leads less m w := by
  induction index with
  | nil => contradiction
  | cons w index ih =>
    rw [leading]
    rcases eq_or_ne index [] with rfl | further
    · refine ⟨w, mem_singleton_self w, rfl, ?_⟩
      intro other mem
      rw [mem_singleton.mp mem]
      exact .refl linear w
    · obtain ⟨m, mem, found, leads⟩ := ih further
      rw [found]
      dsimp only
      split_ifs with first
      · refine ⟨m, mem_cons_of_mem w mem, rfl, ?_⟩
        intro other inside
        rcases mem_cons.mp inside with rfl | inside
        · exact leads_of_precedes linear first
        · exact leads other inside
      · have ahead := leads_of_not_precedes linear (not_eq_true _ ▸ first)
        refine ⟨w, mem_cons_self, rfl, ?_⟩
        intro other inside
        rcases mem_cons.mp inside with rfl | inside
        · exact .refl linear other
        · exact ahead.trans linear (leads other inside)

end Leading

variable {deltas : List StateDelta} {index index' index'' : List IteratorWrapper} {m w w' : IteratorWrapper}
  {key value : Bytes} {entry : Bytes × Bytes} {later : List (Bytes × Bytes)}

section Clean

/-- Revisions decrease towards the root. -/
abbrev Descending (deltas : List StateDelta) : Prop :=
  deltas.Pairwise fun upper lower => lower.revision < upper.revision

theorem isDirty_iff (descending : Descending deltas) {revision : ℕ} :
    isDirty deltas revision key = true ↔ ∃ d ∈ deltas, revision < d.revision ∧ d.isModified key = true := by
  have closed : deltas.Pairwise fun upper lower =>
      decide (revision < lower.revision) = true → decide (revision < upper.revision) = true :=
    descending.imp fun less later => decide_eq_true ((of_decide_eq_true later).trans less)
  rw [isDirty, KeyOrder.takeWhile_eq_filter closed, any_eq_true]
  constructor
  · rintro ⟨d, mem, modified⟩
    rw [mem_filter, decide_eq_true_iff] at mem
    exact ⟨d, mem.1, mem.2, modified⟩
  · rintro ⟨d, mem, later, modified⟩
    exact ⟨d, mem_filter.mpr ⟨mem, decide_eq_true later⟩, modified⟩

/-- No later delta has touched the key. -/
def Clean (deltas : List StateDelta) (revision : ℕ) (key : Bytes) : Prop := isDirty deltas revision key = false

theorem clean_iff (descending : Descending deltas) {revision : ℕ} :
    Clean deltas revision key ↔ ∀ d ∈ deltas, revision < d.revision → d.isModified key = false := by
  rw [Clean, ← not_eq_true, isDirty_iff descending]
  constructor
  · intro untouched d mem later
    by_contra modified
    exact untouched ⟨d, mem, later, not_eq_false _ ▸ modified⟩
  · rintro untouched ⟨d, mem, later, modified⟩
    rw [untouched d mem later] at modified
    contradiction

theorem isModified_eq_false {d : StateDelta} :
    d.isModified key = false ↔ d.get key = none ∧ d.isRemoved key = false := by
  rw [StateDelta.isModified, or_eq_false_iff, Option.isSome_eq_false_iff, Option.isNone_iff_eq_none]

/-- A lookup finds the clean object. -/
theorem findIn_eq_some_iff (descending : Descending deltas) : findIn deltas key = some value ↔
    ∃ d ∈ deltas, d.get key = some value ∧ Clean deltas d.revision key := by
  simp only [clean_iff descending]
  induction deltas with
  | nil =>
    refine iff_of_false (by rw [findIn]; exact (Option.some_ne_none value).symm) ?_
    rintro ⟨d, mem, -⟩
    contradiction
  | cons d deltas ih =>
    obtain ⟨above, descending⟩ := pairwise_cons.mp descending
    rw [findIn_cons]
    cases own : d.get key with
    | some stored =>
      rw [Option.some_or]
      constructor
      · intro found
        refine ⟨d, mem_cons_self, own.trans found, ?_⟩
        intro other mem later
        rcases mem_cons.mp mem with rfl | below
        · exact absurd later (lt_irrefl _)
        · exact absurd later (above other below).asymm
      · rintro ⟨other, mem, holds, untouched⟩
        rcases mem_cons.mp mem with rfl | below
        · exact own.symm.trans holds
        · have modified := untouched d mem_cons_self (above other below)
          rw [isModified_eq_false, own] at modified
          exact absurd modified.1 (Option.some_ne_none _)
    | none =>
      rw [Option.none_or]
      constructor
      · intro found
        split_ifs at found with removed
        obtain ⟨other, mem, holds, untouched⟩ := (ih descending).mp found
        refine ⟨other, mem_cons_of_mem d mem, holds, ?_⟩
        intro upper inside later
        rcases mem_cons.mp inside with rfl | below
        · exact isModified_eq_false.mpr ⟨own, not_eq_true _ ▸ removed⟩
        · exact untouched upper below later
      · rintro ⟨other, mem, holds, untouched⟩
        rcases mem_cons.mp mem with rfl | below
        · rw [own] at holds
          contradiction
        · have modified := untouched d mem_cons_self (above other below)
          rw [(isModified_eq_false.mp modified).2]
          exact (ih descending).mpr ⟨other, below, holds, fun upper inside later =>
            untouched upper (mem_cons_of_mem d inside) later⟩

theorem mem_entries_iff {d : StateDelta} : (key, value) ∈ d.entries ↔ d.get key = some value :=
  Std.ExtTreeMap.mem_toList_iff_getElem?_eq_some

theorem ordered_entries (d : StateDelta) : Cursor.Ordered d.entries :=
  d.objects.ordered_keys_toList.imp fun less => (ByteOrder.compare_eq_lt_iff _ _).mp less

end Clean

section Tracks

/-- The wrappers are those of the deltas, wherever their cursors stand. -/
def Tracks (deltas : List StateDelta) (index : List IteratorWrapper) : Prop :=
  (index.map fun w => (w.revision, w.itr.entries)) = deltas.map fun d => (d.revision, d.entries)

namespace Tracks

section

variable (tracks : Tracks deltas index)

include tracks

theorem delta (mem : w ∈ index) : ∃ d ∈ deltas, d.revision = w.revision ∧ d.entries = w.itr.entries := by
  have listed : (w.revision, w.itr.entries) ∈ deltas.map fun d => (d.revision, d.entries) :=
    tracks ▸ mem_map_of_mem mem
  obtain ⟨d, inside, same⟩ := mem_map.mp listed
  exact ⟨d, inside, congrArg Prod.fst same, congrArg Prod.snd same⟩

theorem wrapper {d : StateDelta} (mem : d ∈ deltas) :
    ∃ w ∈ index, w.revision = d.revision ∧ w.itr.entries = d.entries := by
  have listed : (d.revision, d.entries) ∈ index.map fun w => (w.revision, w.itr.entries) :=
    tracks ▸ mem_map_of_mem mem
  obtain ⟨w, inside, same⟩ := mem_map.mp listed
  exact ⟨w, inside, congrArg Prod.fst same, congrArg Prod.snd same⟩

theorem ordered (mem : w ∈ index) : Cursor.Ordered w.itr.entries := by
  obtain ⟨d, -, -, same⟩ := tracks.delta mem
  rw [← same]
  exact ordered_entries d

theorem revisions : index.map IteratorWrapper.revision = deltas.map StateDelta.revision := by
  have firsts := congrArg (map Prod.fst) tracks
  rw [map_map, map_map] at firsts
  exact firsts

theorem ne_nil (present : deltas ≠ []) : index ≠ [] := by
  rintro rfl
  exact present (map_eq_nil_iff.mp tracks.symm)

theorem eq_of_revision (descending : Descending deltas) (mem : w ∈ index) (mem' : w' ∈ index)
    (same : w.revision = w'.revision) : w = w' := by
  have distinct : (index.map IteratorWrapper.revision).Nodup := by
    rw [tracks.revisions]
    exact pairwise_map.mpr (descending.imp fun less => less.ne')
  exact inj_on_of_nodup_map distinct mem mem' same

/-- Moves keep the deltas in step. -/
theorem of_forall₂ (moved : Forall₂ (fun w w' => w'.revision = w.revision ∧
    w'.itr.entries = w.itr.entries) index index') : Tracks deltas index' := by
  rw [Tracks, ← tracks]
  clear tracks
  induction moved with
  | nil => rfl
  | cons same rest ih => rw [map_cons, map_cons, same.1, same.2, ih]

/-- A later delta with an entry for the key makes it dirty. -/
theorem not_lt_of_clean (descending : Descending deltas) (mem' : w' ∈ index) (inside : entry ∈ w'.itr.entries)
    (clean : Clean deltas w.revision entry.1) : ¬ w.revision < w'.revision := by
  intro less
  obtain ⟨d, known, revision, entries⟩ := tracks.delta mem'
  have untouched := (clean_iff descending).mp clean d known (revision ▸ less)
  rw [isModified_eq_false, mem_entries_iff.mp (entries ▸ inside)] at untouched
  exact absurd untouched.1 (Option.some_ne_none _)

/-- A key is clean in one wrapper at most. -/
theorem eq_of_clean (descending : Descending deltas) (mem : w ∈ index) (mem' : w' ∈ index) {entry' : Bytes × Bytes}
    (inside : entry ∈ w.itr.entries) (inside' : entry' ∈ w'.itr.entries) (clean : Clean deltas w.revision entry.1)
    (clean' : Clean deltas w'.revision entry'.1) (same : entry.1 = entry'.1) : w = w' := by
  refine tracks.eq_of_revision descending mem mem' (le_antisymm ?_ ?_)
  · exact not_lt.mp (tracks.not_lt_of_clean descending mem inside (same ▸ clean'))
  · exact not_lt.mp (tracks.not_lt_of_clean descending mem' inside' (same ▸ clean))

end

end Tracks

end Tracks

section Moves

/-- The cursors have moved ahead over entries that meet a condition. -/
def Moves (condition : ℕ → Bytes → Prop) : List IteratorWrapper → List IteratorWrapper → Prop :=
  List.Forall₂ fun w w' => w'.revision = w.revision ∧ Cursor.Skips (condition w.revision) w.itr w'.itr

variable {condition : ℕ → Bytes → Prop}

theorem exists_of_forall₂ {α β : Type} {rel : α → β → Prop} {as : List α} {bs : List β} {b : β}
    (all : Forall₂ rel as bs) (mem : b ∈ bs) : ∃ a ∈ as, rel a b := by
  induction all with
  | nil => contradiction
  | cons holds rest ih =>
    rcases mem_cons.mp mem with rfl | inside
    · exact ⟨_, mem_cons_self, holds⟩
    · obtain ⟨a, known, holds⟩ := ih inside
      exact ⟨a, mem_cons_of_mem _ known, holds⟩

namespace Moves

theorem refl (condition : ℕ → Bytes → Prop) (index : List IteratorWrapper) : Moves condition index index :=
  forall₂_same.mpr fun _ _ => ⟨rfl, .refl _ _⟩

theorem trans (first : Moves condition index index') (second : Moves condition index' index'') :
    Moves condition index index'' := by
  induction first generalizing index'' with
  | nil => exact second
  | cons step rest ih =>
    cases second with
    | cons step' rest' =>
      refine .cons ⟨step'.1.trans step.1, step.2.trans ?_⟩ (ih rest')
      rw [← step.1]
      exact step'.2

theorem source (moves : Moves condition index index') (mem : w' ∈ index') :
    ∃ w ∈ index, w'.revision = w.revision ∧ Cursor.Skips (condition w.revision) w.itr w'.itr :=
  exists_of_forall₂ moves mem

theorem target (moves : Moves condition index index') (mem : w ∈ index) :
    ∃ w' ∈ index', w'.revision = w.revision ∧ Cursor.Skips (condition w.revision) w.itr w'.itr :=
  exists_of_forall₂ moves.flip mem

theorem tracks (moves : Moves condition index index') (tracks : Tracks deltas index) : Tracks deltas index' :=
  tracks.of_forall₂ (moves.imp fun _ _ step => ⟨step.1, step.2.entries_eq⟩)

end Moves

/-- One increment. -/
theorem moves_advance (tracks : Tracks deltas index) (descending : Descending deltas) (mem : w ∈ index)
    (position : w.itr.rest = entry :: later) (meets : condition w.revision entry.1) :
    Moves condition index (advance index w) ∧ remaining (advance index w) < remaining index := by
  have stepped (other : IteratorWrapper) (inside : other ∈ index) (same : other.revision = w.revision) :
      other.itr.next.getD other.itr = ⟨entry :: w.itr.done, later⟩ := by
    rw [tracks.eq_of_revision descending inside mem same, Cursor.next, position]
    rfl
  constructor
  · rw [Moves, advance, forall₂_map_right_iff, forall₂_same]
    intro other inside
    split_ifs with same
    · refine ⟨rfl, ?_⟩
      rw [stepped other inside same, tracks.eq_of_revision descending inside mem same]
      exact skips_next position meets
    · exact ⟨rfl, .refl _ _⟩
  · rw [remaining, advance, map_map, remaining]
    refine sum_lt_sum _ _ ?_ ⟨w, mem, ?_⟩
    · intro other inside
      dsimp only [Function.comp_apply]
      split_ifs with same
      · rw [stepped other inside same, tracks.eq_of_revision descending inside mem same, position]
        exact Nat.le_succ _
      · exact le_rfl
    · dsimp only [Function.comp_apply]
      rw [if_pos rfl, stepped w mem rfl, position]
      exact Nat.lt_succ_self _

theorem remaining_pos (mem : w ∈ index) (position : w.itr.rest = entry :: later) : 0 < remaining index := by
  refine lt_of_lt_of_le ?_ (single_le_sum (fun _ _ => Nat.zero_le _) _ (mem_map_of_mem mem))
  rw [position]
  exact Nat.succ_pos _

theorem dirtyFirst_eq_some (dirty : dirtyFirst deltas index = some w) : w ∈ index ∧
    ∃ entry later, w.itr.rest = entry :: later ∧ ¬ Clean deltas w.revision entry.1 := by
  rw [dirtyFirst, Option.filter_eq_some_iff] at dirty
  obtain ⟨first, stale⟩ := dirty
  have present : index ≠ [] := by
    rintro rfl
    contradiction
  obtain ⟨m, mem, found, -⟩ := leading_spec linear_less present
  rw [iteratorCompareLess, found, Option.some.injEq] at first
  subst first
  refine ⟨mem, ?_⟩
  cases position : m.itr.rest with
  | nil =>
    rw [position] at stale
    contradiction
  | cons entry later =>
    rw [position, head?_cons, Option.any_some] at stale
    refine ⟨entry, later, rfl, ?_⟩
    rw [Clean, stale]
    exact true_eq_false.mp

theorem resolveConflicts_of_clean (clean : dirtyFirst deltas index = none) (fuel : ℕ) :
    resolveConflicts deltas fuel index = .ok index := by
  cases fuel with
  | zero =>
    rw [resolveConflicts, clean]
    rfl
  | succ fuel =>
    rw [resolveConflicts, clean]
    rfl

/-- The loop steps over dirty entries until the first one is clean. -/
theorem resolveConflicts_spec (descending : Descending deltas) (tracks : Tracks deltas index) {fuel : ℕ}
    (enough : remaining index ≤ fuel) : ∃ index', resolveConflicts deltas fuel index = .ok index' ∧
      Moves (fun revision key => ¬ Clean deltas revision key) index index' ∧ dirtyFirst deltas index' = none := by
  induction fuel generalizing index with
  | zero =>
    have settled : dirtyFirst deltas index = none := by
      cases dirty : dirtyFirst deltas index with
      | none => rfl
      | some w =>
        obtain ⟨mem, entry, later, position, -⟩ := dirtyFirst_eq_some dirty
        exact absurd (remaining_pos mem position) (not_lt.mpr enough)
    exact ⟨index, resolveConflicts_of_clean settled 0, .refl _ _, settled⟩
  | succ fuel ih =>
    rw [resolveConflicts]
    cases dirty : dirtyFirst deltas index with
    | none => exact ⟨index, rfl, .refl _ _, dirty⟩
    | some w =>
      obtain ⟨mem, entry, later, position, stale⟩ := dirtyFirst_eq_some dirty
      have advanced : Moves (fun revision key => ¬ Clean deltas revision key) index (advance index w) ∧ _ :=
        moves_advance tracks descending mem position stale
      obtain ⟨moves, less⟩ := advanced
      obtain ⟨index', resolved, moves', settled⟩ := ih (moves.tracks tracks) (by omega)
      exact ⟨index', resolved, moves.trans moves', settled⟩

end Moves

section Settled

variable {ahead : Bytes → Prop}

/-- The clean entries ahead of the cursors are those whose keys meet a condition. -/
def Covers (deltas : List StateDelta) (ahead : Bytes → Prop) (index : List IteratorWrapper) : Prop :=
  ∀ w ∈ index, ∀ entry ∈ w.itr.entries, Clean deltas w.revision entry.1 →
    (entry ∈ w.itr.rest ↔ ahead entry.1)

theorem Covers.of_moves (covers : Covers deltas ahead index)
    (moves : Moves (fun revision key => ¬ Clean deltas revision key) index index') : Covers deltas ahead index' := by
  intro w' mem entry inside clean
  obtain ⟨w, known, revision, skips⟩ := moves.source mem
  rw [revision] at clean
  rw [skips.entries_eq] at inside
  rw [← covers w known entry inside clean]
  refine ⟨fun later => skips.rest_subset later, fun later => skips.mem_rest later ?_⟩
  exact not_not.mpr clean

/-- What a lookup finds is a clean entry of a wrapper. -/
theorem Tracks.findIn_eq_some_iff (tracks : Tracks deltas index) (descending : Descending deltas) :
    findIn deltas key = some value ↔ ∃ w ∈ index, (key, value) ∈ w.itr.entries ∧ Clean deltas w.revision key := by
  rw [StateDb.findIn_eq_some_iff descending]
  constructor
  · rintro ⟨d, mem, stored, clean⟩
    obtain ⟨w, known, revision, entries⟩ := tracks.wrapper mem
    refine ⟨w, known, ?_, ?_⟩
    · rw [entries]
      exact mem_entries_iff.mpr stored
    · rw [revision]
      exact clean
  · rintro ⟨w, known, stored, clean⟩
    obtain ⟨d, mem, revision, entries⟩ := tracks.delta known
    rw [← entries] at stored
    rw [← revision] at clean
    exact ⟨d, mem, mem_entries_iff.mp stored, clean⟩

/-- An iterator whose position is clean, with the clean entries ahead of it. -/
structure Settled (deltas : List StateDelta) (ahead : Bytes → Prop) (index : List IteratorWrapper) : Prop where
  tracks : Tracks deltas index
  covers : Covers deltas ahead index
  resolved : dirtyFirst deltas index = none

theorem resolveConflicts_settled (descending : Descending deltas) (tracks : Tracks deltas index)
    (covers : Covers deltas ahead index) {fuel : ℕ} (enough : remaining index ≤ fuel) :
    ∃ index', resolveConflicts deltas fuel index = .ok index' ∧ Settled deltas ahead index' := by
  obtain ⟨index', resolves, moves, resolved⟩ := resolveConflicts_spec descending tracks enough
  exact ⟨index', resolves, moves.tracks tracks, covers.of_moves moves, resolved⟩

/-- The first wrapper stands at a clean entry, or all are at their ends. -/
theorem Settled.position (settled : Settled deltas ahead index) (present : deltas ≠ []) :
    ∃ m ∈ index, leading iteratorCompareLess index = some m ∧
      (∀ w ∈ index, Leads (fun left right => decide (left < right)) m w) ∧
      ((m.itr.rest = [] ∧ ∀ w ∈ index, w.itr.rest = []) ∨
        ∃ entry later, m.itr.rest = entry :: later ∧ Clean deltas m.revision entry.1) := by
  obtain ⟨m, mem, first, leads⟩ := leading_spec linear_less (settled.tracks.ne_nil present)
  refine ⟨m, mem, first, leads, ?_⟩
  cases position : m.itr.rest with
  | nil =>
    refine .inl ⟨rfl, fun w inside => ?_⟩
    cases own : w.itr.rest with
    | nil => rfl
    | cons entry later =>
      obtain ⟨entry', later', here, -⟩ := leads w inside entry later own
      rw [position] at here
      contradiction
  | cons entry later =>
    refine .inr ⟨entry, later, rfl, ?_⟩
    have resolved := settled.resolved
    rw [dirtyFirst, iteratorCompareLess, first, Option.filter_eq_none_iff] at resolved
    have clean := resolved m rfl
    rw [position, head?_cons, Option.any_some, not_eq_true] at clean
    exact clean

theorem Settled.not_ahead (settled : Settled deltas ahead index) (descending : Descending deltas)
    (finished : ∀ w ∈ index, w.itr.rest = []) (visible : (findIn deltas key).isSome) : ¬ ahead key := by
  obtain ⟨value, found⟩ := Option.isSome_iff_exists.mp visible
  obtain ⟨w, mem, inside, clean⟩ := (settled.tracks.findIn_eq_some_iff descending).mp found
  rw [← settled.covers w mem _ inside clean, finished w mem]
  exact not_mem_nil

/-- The position is the least visible key ahead. -/
theorem Settled.least (settled : Settled deltas ahead index) (descending : Descending deltas) (mem : m ∈ index)
    (leads : ∀ w ∈ index, Leads (fun left right => decide (left < right)) m w) (position : m.itr.rest = entry :: later)
    (clean : Clean deltas m.revision entry.1) :
    findIn deltas entry.1 = some entry.2 ∧ ahead entry.1 ∧
      ∀ other, (findIn deltas other).isSome → ahead other → entry.1 ≤ other := by
  have here : entry ∈ m.itr.rest := by
    rw [position]
    exact mem_cons_self
  have inside : entry ∈ m.itr.entries := mem_entries.mpr (.inr here)
  refine ⟨?_, (settled.covers m mem entry inside clean).mp here, ?_⟩
  · exact (settled.tracks.findIn_eq_some_iff descending).mpr ⟨m, mem, inside, clean⟩
  · intro other visible later
    obtain ⟨value, found⟩ := Option.isSome_iff_exists.mp visible
    obtain ⟨w, known, stored, clean'⟩ := (settled.tracks.findIn_eq_some_iff descending).mp found
    have rest := (settled.covers w known _ stored clean').mpr later
    obtain ⟨entry', later', split'⟩ := exists_cons_of_ne_nil (ne_nil_of_mem rest)
    obtain ⟨entry'', later'', split'', above, -⟩ := leads w known entry' later' split'
    rw [position, cons.injEq] at split''
    rw [← split''.1, decide_eq_false_iff_not, not_lt] at above
    exact above.trans (le_of_mem_rest (settled.tracks.ordered known) split' rest)

section Create

variable (init : StateDelta → Cursor Bytes Bytes)

section

variable (descending : Descending deltas)

include descending

theorem foldl_emplace (index : List IteratorWrapper) (fresh : ∀ w ∈ index, ∀ d ∈ deltas, w.revision ≠ d.revision) :
    deltas.foldl (fun index d => emplace index ⟨init d, d.revision⟩) index =
      index ++ deltas.map fun d => ⟨init d, d.revision⟩ := by
  induction deltas generalizing index with
  | nil => rw [foldl_nil, map_nil, append_nil]
  | cons d deltas ih =>
    obtain ⟨above, descending⟩ := pairwise_cons.mp descending
    have absent : ¬ (index.any fun other => other.revision = d.revision) = true := by
      rw [any_eq_true]
      rintro ⟨w, mem, same⟩
      exact fresh w mem d mem_cons_self (of_decide_eq_true same)
    rw [foldl_cons, emplace, if_neg absent, ih descending, map_cons, append_assoc]
    · rfl
    · intro w mem other inside
      rcases mem_append.mp mem with old | new
      · exact fresh w old other (mem_cons_of_mem d inside)
      · rw [mem_singleton.mp new]
        exact (above other inside).ne'

/-- The constructor settles the cursors it is given. -/
theorem create_settled (entries : ∀ d ∈ deltas, (init d).entries = d.entries)
    (covered : ∀ d ∈ deltas, ∀ entry ∈ d.entries, (entry ∈ (init d).rest ↔ ahead entry.1)) :
    ∃ index, create deltas init = .ok ⟨index, deltas⟩ ∧ Settled deltas ahead index := by
  have emplaced := foldl_emplace init descending [] (fun w mem => by contradiction)
  rw [nil_append] at emplaced
  have tracks : Tracks deltas (deltas.map fun d => ⟨init d, d.revision⟩) := by
    rw [Tracks, map_map]
    refine map_congr_left fun d mem => ?_
    dsimp only [Function.comp_apply]
    rw [entries d mem]
  have covers : Covers deltas ahead (deltas.map fun d => ⟨init d, d.revision⟩) := by
    intro w mem entry inside _
    obtain ⟨d, known, rfl⟩ := mem_map.mp mem
    dsimp only at inside ⊢
    rw [entries d known] at inside
    exact covered d known entry inside
  obtain ⟨index, resolves, settled⟩ := resolveConflicts_settled descending tracks covers le_rfl
  refine ⟨index, ?_, settled⟩
  rw [create, emplaced, resolves]
  rfl

theorem start_settled : ∃ index, start deltas = .ok ⟨index, deltas⟩ ∧ Settled deltas (fun _ => True) index :=
  create_settled _ descending (fun _ _ => entries_first _)
    (fun _ _ _ inside => iff_of_true inside trivial)

theorem finish_settled : ∃ index, finish deltas = .ok ⟨index, deltas⟩ ∧ Settled deltas (fun _ => False) index :=
  create_settled _ descending (fun _ _ => entries_last _)
    (fun _ _ _ _ => iff_of_false not_mem_nil id)

theorem lowerBound_settled (key : Bytes) :
    ∃ index, lowerBound deltas key = .ok ⟨index, deltas⟩ ∧ Settled deltas (fun other => key ≤ other) index := by
  refine create_settled _ descending (fun _ _ => entries_lowerBound _ _) ?_
  intro d _ entry inside
  rw [mem_rest_lowerBound (ordered_entries d)]
  exact and_iff_right inside

end

end Create

theorem mem_advance (tracks : Tracks deltas index) (descending : Descending deltas) (mem : m ∈ index)
    (position : m.itr.rest = entry :: later) (inside : w ∈ advance index m) :
    w = ⟨⟨entry :: m.itr.done, later⟩, m.revision⟩ ∨ w ∈ index ∧ w.revision ≠ m.revision := by
  obtain ⟨other, known, rfl⟩ := mem_map.mp inside
  split_ifs with same
  · left
    rw [tracks.eq_of_revision descending known mem same, Cursor.next, position]
    rfl
  · exact .inr ⟨known, same⟩

theorem valid_of_rest (position : m.itr.rest = entry :: later) : m.valid = true := by
  rw [IteratorWrapper.valid, Cursor.valid, position]
  rfl

/-- An increment leaves the position behind. -/
theorem increment_settled (settled : Settled deltas ahead index) (descending : Descending deltas) (mem : m ∈ index)
    (first : leading iteratorCompareLess index = some m) (position : m.itr.rest = entry :: later)
    (clean : Clean deltas m.revision entry.1) :
    ∃ index', increment ⟨index, deltas⟩ = .ok ⟨index', deltas⟩ ∧
      Settled deltas (fun key => ahead key ∧ key ≠ entry.1) index' := by
  have advanced : Moves (fun _ _ => True) index (advance index m) ∧ _ :=
    moves_advance settled.tracks descending mem position trivial
  have here : entry ∈ m.itr.entries := by
    rw [mem_entries, position]
    exact .inr mem_cons_self
  have covers : Covers deltas (fun key => ahead key ∧ key ≠ entry.1) (advance index m) := by
    intro w inside other stored clean'
    rcases mem_advance settled.tracks descending mem position inside with rfl | ⟨known, different⟩
    · have entries : entries ⟨entry :: m.itr.done, later⟩ = m.itr.entries := by
        rw [entries, entries, position, reverse_cons, append_assoc]
        rfl
      dsimp only at stored clean' ⊢
      rw [entries] at stored
      rw [← settled.covers m mem other stored clean', position, mem_cons]
      constructor
      · intro further
        have above := lt_of_mem_later (settled.tracks.ordered mem) position further
        exact ⟨.inr further, above.ne'⟩
      · rintro ⟨rfl | further, different⟩
        · exact absurd rfl different
        · exact further
    · dsimp only
      rw [← settled.covers w known other stored clean']
      refine (and_iff_left ?_).symm
      intro same
      have equal := settled.tracks.eq_of_clean descending known mem stored here clean' clean same
      exact different (congrArg IteratorWrapper.revision equal)
  obtain ⟨index', resolves, settled'⟩ := resolveConflicts_settled descending
    (advanced.1.tracks settled.tracks) covers advanced.2.le
  refine ⟨index', ?_, settled'⟩
  rw [increment, first, Option.filter_some, if_pos (valid_of_rest position)]
  dsimp only
  rw [resolves]
  rfl

theorem entry_of_leading (first : leading iteratorCompareLess index = some m) (position : m.itr.rest = entry :: later) :
    MergeIterator.entry ⟨index, deltas⟩ = .ok entry := by
  rw [MergeIterator.entry, first, Option.filter_some, if_pos (valid_of_rest position)]
  dsimp only
  rw [IteratorWrapper.entry, position]
  rfl

/-- An iterator equals the end when its first wrapper is at its end. -/
theorem equal_finish (first : leading iteratorCompareLess index = some m) (present : deltas ≠ [])
    (finished : Settled deltas (fun _ => False) index') (descending : Descending deltas) :
    equal ⟨index, deltas⟩ ⟨index', deltas⟩ = m.itr.rest.isEmpty := by
  obtain ⟨m', mem, first', leads, last | ⟨entry, later, position, clean⟩⟩ := finished.position present
  · rw [equal, first, first']
    dsimp only
    rw [last.1]
    cases m.itr.rest <;> rfl
  · exact absurd (finished.least descending mem leads position clean).2.1 id

end Settled

end Teleno.StateDb
