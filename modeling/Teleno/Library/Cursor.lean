import Mathlib.Order.Lattice
import Mathlib.Data.List.TakeWhile

/-! # Cursors in sorted containers

A cursor splits the entries of a container into those it has passed, nearest first, and those from its
position on; it is at the end when there are none of these. Cursors move over entries one at a time.
What a cursor has skipped and what it still has ahead is all that proofs about loops of such moves need.
-/

namespace Teleno.Library

open List

structure Cursor (α β : Type*) where
  done : List (α × β)
  rest : List (α × β)

namespace Cursor

variable {α β : Type*}

/-- The container. -/
def entries (c : Cursor α β) : List (α × β) := c.done.reverse ++ c.rest

def valid (c : Cursor α β) : Bool := !c.rest.isEmpty

def first (entries : List (α × β)) : Cursor α β := ⟨[], entries⟩

def last (entries : List (α × β)) : Cursor α β := ⟨entries.reverse, []⟩

/-- At the first entry whose key is not below a bound. -/
def lowerBound (below : α → Bool) (entries : List (α × β)) : Cursor α β :=
  ⟨(entries.takeWhile fun entry => below entry.1).reverse, entries.dropWhile fun entry => below entry.1⟩

def next (c : Cursor α β) : Option (Cursor α β) :=
  match c.rest with
  | [] => none
  | entry :: rest => some ⟨entry :: c.done, rest⟩

def prev (c : Cursor α β) : Option (Cursor α β) :=
  match c.done with
  | [] => none
  | entry :: done => some ⟨done, entry :: c.rest⟩

/-- Step back while the entry meets a condition and is not the first one. -/
def backWhile (condition : α → Bool) : List (α × β) → List (α × β) → Cursor α β
  | [], rest => ⟨[], rest⟩
  | entry :: done, [] => ⟨entry :: done, []⟩
  | entry :: done, here :: rest =>
    if condition here.1 then backWhile condition done (entry :: here :: rest) else ⟨entry :: done, here :: rest⟩

theorem entries_first (entries : List (α × β)) : (first entries).entries = entries := rfl

theorem entries_last (entries : List (α × β)) : (last entries).entries = entries := by
  rw [last, Cursor.entries, reverse_reverse, append_nil]

theorem entries_lowerBound (below : α → Bool) (entries : List (α × β)) :
    (lowerBound below entries).entries = entries := by
  rw [lowerBound, Cursor.entries, reverse_reverse, takeWhile_append_dropWhile]

theorem mem_entries {c : Cursor α β} {entry : α × β} : entry ∈ c.entries ↔ entry ∈ c.done ∨ entry ∈ c.rest := by
  rw [entries, mem_append, mem_reverse]

section Skips

/-- The second cursor is ahead of the first, and the keys in between meet a condition. -/
def Skips (condition : α → Prop) (c c' : Cursor α β) : Prop :=
  ∃ gone, c.rest = gone ++ c'.rest ∧ c'.done = gone.reverse ++ c.done ∧ ∀ entry ∈ gone, condition entry.1

variable {condition : α → Prop} {c c' c'' : Cursor α β}

namespace Skips

theorem refl (condition : α → Prop) (c : Cursor α β) : Skips condition c c :=
  ⟨[], rfl, rfl, fun entry mem => by contradiction⟩

theorem trans (first : Skips condition c c') (second : Skips condition c' c'') : Skips condition c c'' := by
  obtain ⟨gone, rest, done, all⟩ := first
  obtain ⟨gone', rest', done', all'⟩ := second
  refine ⟨gone ++ gone', ?_, ?_, ?_⟩
  · rw [rest, rest', append_assoc]
  · rw [done', done, reverse_append, append_assoc]
  · intro entry mem
    exact (mem_append.mp mem).elim (all entry) (all' entry)

theorem entries_eq (skips : Skips condition c c') : c'.entries = c.entries := by
  obtain ⟨gone, rest, done, -⟩ := skips
  rw [entries, entries, rest, done, reverse_append, reverse_reverse, append_assoc]

/-- Entries that do not meet the condition are still ahead. -/
theorem mem_rest (skips : Skips condition c c') {entry : α × β} (mem : entry ∈ c.rest)
    (stays : ¬ condition entry.1) : entry ∈ c'.rest := by
  obtain ⟨gone, rest, -, all⟩ := skips
  rw [rest] at mem
  exact (mem_append.mp mem).resolve_left fun dropped => stays (all entry dropped)

theorem rest_subset (skips : Skips condition c c') : c'.rest ⊆ c.rest := by
  obtain ⟨gone, rest, -, -⟩ := skips
  rw [rest]
  exact subset_append_right gone c'.rest

end Skips

theorem skips_next {entry : α × β} {rest : List (α × β)} (here : c.rest = entry :: rest)
    (meets : condition entry.1) : Skips condition c ⟨entry :: c.done, rest⟩ := by
  refine ⟨[entry], here, rfl, ?_⟩
  intro other mem
  rw [mem_singleton.mp mem]
  exact meets

end Skips

section Back

variable (condition : α → Bool)

/-- The entries stay, and the cursor has stopped where the condition fails or at the first entry. -/
theorem backWhile_spec (done rest : List (α × β)) (here : rest ≠ []) :
    (backWhile condition done rest).entries = done.reverse ++ rest ∧
    (∃ entry later, (backWhile condition done rest).rest = entry :: later ∧
      (entry ∈ done ∨ rest.head? = some entry) ∧
      ((backWhile condition done rest).done = [] ∨ condition entry.1 = false) ∧
      ∀ other ∈ later, other ∈ rest.tail ∨ condition other.1 = true) ∧
    (backWhile condition done rest).done <:+ done := by
  induction done generalizing rest with
  | nil =>
    obtain ⟨entry, later, rfl⟩ := exists_cons_of_ne_nil here
    exact ⟨rfl, ⟨entry, later, rfl, .inr rfl, .inl rfl, fun other mem => .inl mem⟩, suffix_refl _⟩
  | cons before done ih =>
    obtain ⟨entry, later, rfl⟩ := exists_cons_of_ne_nil here
    rw [backWhile]
    split_ifs with holds
    · obtain ⟨same, ⟨entry', later', split', reached, stopped, behind⟩, suffix⟩ :=
        ih (before :: entry :: later) (cons_ne_nil _ _)
      refine ⟨?_, ⟨entry', later', split', .inl ?_, stopped, ?_⟩, suffix.trans (suffix_cons before done)⟩
      · rw [same, reverse_cons, append_assoc]
        rfl
      · rcases reached with inside | here
        · exact mem_cons_of_mem before inside
        · rw [← Option.some.inj here]
          exact mem_cons_self
      · intro other mem
        rcases behind other mem with inside | meets
        · rcases mem_cons.mp inside with rfl | further
          · exact .inr holds
          · exact .inl further
        · exact .inr meets
    · exact ⟨rfl, ⟨entry, later, rfl, .inr rfl, .inr (Bool.not_eq_true _ ▸ holds), fun other mem => .inl mem⟩,
        suffix_refl _⟩

end Back

section Sorted

variable [LinearOrder α]

/-- The keys strictly increase. -/
def Ordered (entries : List (α × β)) : Prop := entries.Pairwise fun left right => left.1 < right.1

variable {c : Cursor α β}

theorem lt_of_mem_done (ordered : Ordered c.entries) {left right : α × β} (before : left ∈ c.done)
    (after : right ∈ c.rest) : left.1 < right.1 :=
  (pairwise_append.mp ordered).2.2 left (mem_reverse.mpr before) right after

theorem le_of_mem_rest (ordered : Ordered c.entries) {here other : α × β} {later : List (α × β)}
    (position : c.rest = here :: later) (mem : other ∈ c.rest) : here.1 ≤ other.1 := by
  have sorted := (pairwise_append.mp ordered).2.1
  rw [position] at sorted mem
  rcases mem_cons.mp mem with rfl | further
  · exact le_rfl
  · exact (rel_of_pairwise_cons sorted further).le

theorem lt_of_mem_later (ordered : Ordered c.entries) {here other : α × β} {later : List (α × β)}
    (position : c.rest = here :: later) (mem : other ∈ later) : here.1 < other.1 := by
  have sorted := (pairwise_append.mp ordered).2.1
  rw [position] at sorted
  exact rel_of_pairwise_cons sorted mem

/-- One key, one entry. -/
theorem Ordered.eq_of_key {entries : List (α × β)} (ordered : Ordered entries) {left right : α × β}
    (mem : left ∈ entries) (mem' : right ∈ entries) (same : left.1 = right.1) : left = right := by
  induction entries with
  | nil => contradiction
  | cons head entries ih =>
    obtain ⟨above, ordered⟩ := pairwise_cons.mp ordered
    rcases mem_cons.mp mem with rfl | inside
    · rcases mem_cons.mp mem' with rfl | inside'
      · rfl
      · exact absurd same (above right inside').ne
    · rcases mem_cons.mp mem' with rfl | inside'
      · exact absurd same (above left inside).ne'
      · exact ih ordered inside inside'

/-- The entries ahead of a lower bound are those that are not below it. -/
theorem mem_rest_lowerBound {entries : List (α × β)} (ordered : Ordered entries) (key : α) (entry : α × β) :
    entry ∈ (lowerBound (fun other => decide (other < key)) entries).rest ↔ entry ∈ entries ∧ key ≤ entry.1 := by
  induction entries with
  | nil => simp [lowerBound]
  | cons head entries ih =>
    obtain ⟨above, ordered⟩ := pairwise_cons.mp ordered
    specialize ih ordered
    rw [lowerBound] at ih ⊢
    dsimp only at ih ⊢
    rw [dropWhile_cons]
    split_ifs with below
    · rw [ih, mem_cons]
      refine ⟨fun both => ⟨.inr both.1, both.2⟩, fun both => ⟨both.1.resolve_left ?_, both.2⟩⟩
      rintro rfl
      exact absurd (of_decide_eq_true below) (not_lt.mpr both.2)
    · have least : key ≤ head.1 := not_lt.mp fun less => below (decide_eq_true less)
      refine ⟨fun mem => ⟨mem, ?_⟩, And.left⟩
      rcases mem_cons.mp mem with rfl | inside
      · exact least
      · exact least.trans (above entry inside).le

end Sorted

end Cursor

end Teleno.Library
