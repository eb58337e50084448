import Mathlib.Data.Finset.Card
import Mathlib.Data.Finset.Image
import Teleno.Protocol

/-! # The fork watchdog

Blocks that are gossiped or fetched are counted under a key, and irreversible heights make the watchdog forget keys.
The handlers pass the signature of a block where the watchdog expects its signer.
-/

namespace Teleno.P2p

open List

/-- The fields of a received block that the handlers read. -/
structure ReceivedBlock where
  id : Bytes := []
  header : Option BlockHeader := none
  signature : Bytes := []
deriving DecidableEq

namespace ReceivedBlock

variable (block : ReceivedBlock)

/-- The header, which has its defaults if it is missing. -/
def headerOrDefault : BlockHeader := block.header.getD {}

abbrev signer : Bytes := block.headerOrDefault.signer
abbrev previous : Bytes := block.headerOrDefault.previous
abbrev height : ℕ := block.headerOrDefault.height

end ReceivedBlock

/-- A signer and a parent. -/
abbrev ForkKey := Bytes × Bytes

/-- `ForkWatchdog`: the block ids by key, and the keys by height. -/
structure ForkWatchdog where
  forks : Finset (ForkKey × Bytes) := ∅
  heightIndex : Finset (ℕ × ForkKey) := ∅

def maxForksPerParent : ℕ := 3

/-- Whether this block is one too many. -/
def ForkWatchdog.check (w : ForkWatchdog) (blockId signer parentId : Bytes) (height : ℕ) : Bool × ForkWatchdog :=
  let key := (signer, parentId)
  let forks := insert (key, blockId) w.forks
  ((forks.filter fun fork => fork.1 = key).card > maxForksPerParent, ⟨forks, insert (height, key) w.heightIndex⟩)

def ForkWatchdog.purgeBelow (w : ForkWatchdog) (height : ℕ) : ForkWatchdog :=
  let purged := w.heightIndex.filter fun entry => entry.1 ≤ height
  ⟨w.forks.filter fun fork => fork.1 ∉ purged.image Prod.snd, w.heightIndex \ purged⟩

/-- A block with the handler that it is passed to. A fetched block has to continue the ones before it. -/
inductive Reception where
  | gossip (block : ReceivedBlock)
  | sync (expectedHeight : ℕ) (expectedPrevious : Bytes) (block : ReceivedBlock)

namespace Reception

def block : Reception → ReceivedBlock
  | gossip block => block
  | sync _ _ block => block

/-- The checks ahead of the watchdog. -/
def passes : Reception → Bool
  | gossip block => block.id ≠ [] ∧ block.header.isSome
  | sync expectedHeight expectedPrevious block => block.header.isSome ∧ block.id ≠ [] ∧
    block.height = expectedHeight ∧ (expectedPrevious = [] ∨ block.previous = expectedPrevious)

/-- The key that the handlers use. -/
def key (r : Reception) : ForkKey := (r.block.signature, r.block.previous)

/-- The start of `on_gossip_block`, and one round of `request_sync_blocks`: whether a fork bomb is reported. -/
def handle (r : Reception) (w : ForkWatchdog) : Bool × ForkWatchdog :=
  if r.passes then w.check r.block.id r.block.signature r.block.previous r.block.height else (false, w)

end Reception

inductive WatchdogEvent where
  | received (r : Reception)
  | irreversible (height : ℕ)

/-- The watchdog after one more event; `on_block_irreversible` purges. -/
def WatchdogEvent.apply (w : ForkWatchdog) : WatchdogEvent → ForkWatchdog
  | received r => (r.handle w).2
  | irreversible height => w.purgeBelow height

def runWatchdog (events : List WatchdogEvent) : ForkWatchdog := events.foldl WatchdogEvent.apply {}

/-- The irreversible heights among the events. -/
def irreversibleHeights (events : List WatchdogEvent) : List ℕ := events.filterMap fun
  | .received _ => none
  | .irreversible height => some height

/-- Four block ids of one signer on one parent. -/
structure ForkBomb (group : List Reception) : Prop where
  four : group.length = 4
  distinct : (group.map fun r => r.block.id).Nodup
  alike : ∀ x ∈ group, ∀ y ∈ group, x.block.signer = y.block.signer ∧ x.block.previous = y.block.previous

/-- Whatever arrives in whatever order, the handler of a block that completes a fork bomb above the irreversible
heights reports it. -/
def DetectsForkBombs (arrives : Reception → Prop) : Prop :=
  ∀ events r rest, (∀ x, .received x ∈ events → arrives x) → arrives r →
    (irreversibleHeights events).Pairwise (· ≤ ·) → ForkBomb (r :: rest) → (∀ x ∈ rest, .received x ∈ events) →
    (∀ x ∈ r :: rest, ∀ height, .irreversible height ∈ events → height < x.block.height) →
    (r.handle (runWatchdog events)).1 = true

/-- The blocks of a fork bomb pass the checks and carry one signature, and no block with the same key claims a lower
height than all of them. -/
def ForkBombsTraced (arrives : Reception → Prop) : Prop :=
  ∀ group, ForkBomb group → (∀ x ∈ group, arrives x) → ∀ x ∈ group, x.passes = true ∧
    (∀ y ∈ group, y.block.signature = x.block.signature) ∧
    ∀ low, arrives low → low.passes = true → low.key = x.key → ∃ y ∈ group, y.block.height ≤ low.block.height

section Memory

variable {events : List WatchdogEvent} {event : WatchdogEvent} {r : Reception} {w : ForkWatchdog} {height : ℕ}
  {known : Reception → Prop} {fork : ForkKey × Bytes} {entry : ℕ × ForkKey}

@[grind =] theorem mem_forks_handle :
    fork ∈ (r.handle w).2.forks ↔ r.passes = true ∧ fork = (r.key, r.block.id) ∨ fork ∈ w.forks := by
  cases passes : r.passes <;> simp [Reception.handle, passes, ForkWatchdog.check, Reception.key]

@[grind =] theorem mem_heightIndex_handle : entry ∈ (r.handle w).2.heightIndex ↔
    r.passes = true ∧ entry = (r.block.height, r.key) ∨ entry ∈ w.heightIndex := by
  cases passes : r.passes <;> simp [Reception.handle, passes, ForkWatchdog.check, Reception.key]

@[grind =] theorem mem_forks_purgeBelow : fork ∈ (w.purgeBelow height).forks ↔
    fork ∈ w.forks ∧ ∀ low ≤ height, (low, fork.1) ∉ w.heightIndex := by
  simp only [ForkWatchdog.purgeBelow, Finset.mem_filter, Finset.mem_image, Prod.exists, exists_eq_right, not_exists,
    not_and]
  exact and_congr_right fun _ => forall_congr' fun low => ⟨fun h le mem => h mem le, fun h mem le => h le mem⟩

/-- What the watchdog has stored came with a known block. -/
structure Stored (known : Reception → Prop) (w : ForkWatchdog) : Prop where
  forks : ∀ fork ∈ w.forks, ∃ x, known x ∧ x.key = fork.1 ∧ x.block.id = fork.2
  index : ∀ entry ∈ w.heightIndex, ∃ x, known x ∧ x.passes = true ∧ x.key = entry.2 ∧ x.block.height = entry.1

theorem Stored.apply (stored : Stored known w) (new : ∀ r, event = .received r → known r) :
    Stored known (event.apply w) := by
  obtain ⟨forks, index⟩ := stored
  cases event with
  | irreversible height =>
    exact ⟨by grind [WatchdogEvent.apply], fun entry mem => index entry (Finset.mem_sdiff.mp mem).1⟩
  | received r => constructor <;> grind [WatchdogEvent.apply]

/-- No event forgets a key whose blocks are all above the irreversible heights. -/
theorem Stored.mem_apply (stored : Stored known w) (mem : fork ∈ w.forks)
    (above : ∀ height, event = .irreversible height → ∀ x, known x → x.passes = true → x.key = fork.1 →
      height < x.block.height) : fork ∈ (event.apply w).forks := by
  have index := stored.index
  cases event with
  | irreversible height =>
    refine mem_forks_purgeBelow.mpr ⟨mem, fun low isLow indexed => ?_⟩
    obtain ⟨x, isKnown, passes, named, claims⟩ := index _ indexed
    have higher := above height rfl x isKnown passes named
    omega
  | received r => exact mem_forks_handle.mpr (.inr mem)

theorem Stored.remembered (stored : Stored known w) (isKnown : ∀ x, .received x ∈ events → known x)
    (above : ∀ x, known x → x.passes = true → x.key = r.key →
      ∀ height, .irreversible height ∈ events → height < x.block.height) (passes : r.passes = true)
    (reached : .received r ∈ events ∨ (r.key, r.block.id) ∈ w.forks) :
    (r.key, r.block.id) ∈ (events.foldl WatchdogEvent.apply w).forks := by
  induction events generalizing w with
  | nil => exact reached.resolve_left not_mem_nil
  | cons event events ih =>
    refine ih (stored.apply (by grind)) (by grind) (by grind) ?_
    rcases reached with received | mem
    · rcases mem_cons.mp received with rfl | later
      · exact .inr (by grind [WatchdogEvent.apply])
      · exact .inl later
    · exact .inr (stored.mem_apply mem (by grind))

theorem stored_runWatchdog (events : List WatchdogEvent) :
    Stored (fun x => .received x ∈ events) (runWatchdog events) := by
  refine foldlRecOn events _ ⟨by simp, by simp⟩ ?_
  rintro w stored event inside
  exact stored.apply (by rintro r rfl; exact inside)

/-- What is counted at a block. -/
def Reception.counted (r : Reception) (w : ForkWatchdog) : Finset (ForkKey × Bytes) :=
  (insert (r.key, r.block.id) w.forks).filter fun fork => fork.1 = r.key

@[grind =] theorem mem_counted :
    fork ∈ r.counted w ↔ (fork = (r.key, r.block.id) ∨ fork ∈ w.forks) ∧ fork.1 = r.key := by
  rw [Reception.counted, Finset.mem_filter, Finset.mem_insert]

theorem reports_iff : (r.handle w).1 = true ↔ r.passes = true ∧ 3 < (r.counted w).card := by
  rw [Reception.handle]
  split_ifs with passes
  · exact (decide_eq_true_iff (p := 3 < (r.counted w).card)).trans (and_iff_right passes).symm
  · simp [passes]

end Memory

section Groups

variable {group rest : List Reception} {r : Reception} {arrives : Reception → Prop}

/-- Any block of a fork bomb may come last. -/
theorem ForkBomb.perm {group' : List Reception} (bomb : ForkBomb group) (perm : group'.Perm group) :
    ForkBomb group' where
  four := perm.length_eq.trans bomb.four
  distinct := (perm.map _).nodup_iff.mpr bomb.distinct
  alike x inside y inside' := bomb.alike x (perm.subset inside) y (perm.subset inside')

/-- A report counts all blocks of the fork bomb. -/
theorem same_key_of_reports (three : rest.length = 3)
    (reports : (r.handle (runWatchdog (rest.map .received))).1 = true) : ∀ x ∈ rest, x.key = r.key := by
  have many := (reports_iff.mp reports).2
  have known : r.counted (runWatchdog (rest.map .received)) ⊆
      ((r :: rest.filter fun x => x.key = r.key).map fun x => (x.key, x.block.id)).toFinset := by
    have stored := (stored_runWatchdog (rest.map .received)).forks
    intro fork mem
    grind [mem_toFinset]
  have bound := (Finset.card_le_card known).trans (toFinset_card_le _)
  rw [length_map, length_cons] at bound
  have all : (rest.filter fun x => x.key = r.key) = rest := filter_sublist.eq_of_length_le (by omega)
  intro x mem
  rw [← all] at mem
  exact of_decide_eq_true (mem_filter.mp mem).2

/-- A fork bomb that can be traced is counted in full. -/
theorem reports_of_traced {events : List WatchdogEvent} (bomb : ForkBomb (r :: rest))
    (passes : ∀ x ∈ r :: rest, x.passes = true) (named : ∀ x ∈ rest, x.key = r.key)
    (received : ∀ x ∈ rest, .received x ∈ events) (above : ∀ x, .received x ∈ events → x.passes = true → x.key = r.key →
      ∀ height, .irreversible height ∈ events → height < x.block.height) :
    (r.handle (runWatchdog events)).1 = true := by
  refine reports_iff.mpr ⟨passes r mem_cons_self, ?_⟩
  have ids : ((r :: rest).map fun x => (r.key, x.block.id)).Nodup :=
    Nodup.of_map Prod.snd (by rw [map_map]; exact bomb.distinct)
  have counted : ((r :: rest).map fun x => (r.key, x.block.id)).toFinset ⊆ r.counted (runWatchdog events) := by
    have remembered (x) (inside : x ∈ rest) : (r.key, x.block.id) ∈ (runWatchdog events).forks := by
      rw [← named x inside] at above ⊢
      exact Stored.remembered ⟨by simp, by simp⟩ (fun _ mem => mem) above
        (passes x (mem_cons_of_mem _ inside)) (.inl (received x inside))
    intro fork mem
    grind [mem_toFinset]
  have bound := Finset.card_le_card counted
  rw [toFinset_card_of_nodup ids, length_map, bomb.four] at bound
  exact bound

/-- A block with the same key, below the others, makes the watchdog forget them. -/
theorem DetectsForkBombs.exists_low (detects : DetectsForkBombs arrives) (bomb : ForkBomb (r :: rest))
    (arriving : ∀ x ∈ r :: rest, arrives x) {low : Reception} (arrivesLow : arrives low) (passesLow : low.passes = true)
    (sameKey : low.key = r.key) : ∃ y ∈ r :: rest, y.block.height ≤ low.block.height := by
  by_contra lower
  have reports := detects (rest.map .received ++ [.received low, .irreversible low.block.height]) r rest (by grind)
    (arriving r mem_cons_self) (by simp [irreversibleHeights]) bomb (by grind) (by grind)
  have only : r.counted (runWatchdog (rest.map .received ++ [.received low, .irreversible low.block.height])) ⊆
      {(r.key, r.block.id)} := by
    intro fork mem
    simp only [runWatchdog, foldl_append, foldl_cons, foldl_nil, WatchdogEvent.apply] at mem
    obtain ⟨same | inside, named⟩ := mem_counted.mp mem
    · exact Finset.mem_singleton.mpr same
    · refine absurd ?_ ((mem_forks_purgeBelow.mp inside).2 low.block.height le_rfl)
      exact mem_heightIndex_handle.mpr (.inl ⟨passesLow, by rw [named, sameKey]⟩)
  have bound := Finset.card_le_card only
  have many := (reports_iff.mp reports).2
  rw [Finset.card_singleton] at bound
  omega

end Groups

/-- For every set of blocks that may arrive: fork bombs are detected exactly if all of them can be traced. -/
theorem detectsForkBombs_iff (arrives : Reception → Prop) : DetectsForkBombs arrives ↔ ForkBombsTraced arrives := by
  constructor
  · intro detects group bomb arriving r mem
    obtain ⟨front, back, rfl⟩ := append_of_mem mem
    have perm : (r :: (front ++ back)).Perm (front ++ r :: back) := perm_middle.symm
    have bomb' := bomb.perm perm
    have reports := detects ((front ++ back).map .received) r (front ++ back) (by grind) (arriving r mem)
      (by simp [irreversibleHeights]) bomb' (by grind) (by grind)
    have same := same_key_of_reports (Nat.succ.inj bomb'.four) reports
    refine ⟨(reports_iff.mp reports).1, fun y inside => ?_, fun low arrivesLow passesLow sameKey => ?_⟩
    · rcases mem_cons.mp (perm.symm.subset inside) with rfl | inside
      · rfl
      · exact congrArg Prod.fst (same y inside)
    · obtain ⟨y, inside, below⟩ := detects.exists_low bomb' (fun x inside => arriving x (perm.subset inside)) arrivesLow
        passesLow sameKey
      exact ⟨y, perm.subset inside, below⟩
  · intro traced events r rest arriving arrivesLast _ bomb received above
    have facts := traced (r :: rest) bomb (by grind)
    obtain ⟨-, signatures, lows⟩ := facts r mem_cons_self
    refine reports_of_traced bomb (fun x inside => (facts x inside).1) (fun x inside => ?_) received ?_
    · exact Prod.ext (signatures x (mem_cons_of_mem _ inside))
        (bomb.alike x (mem_cons_of_mem _ inside) r mem_cons_self).2
    · intro x known passes named height listed
      obtain ⟨y, inside, below⟩ := lows x (arriving x known) passes named
      exact (above y inside height listed).trans_le below

/-- A block of one signer on the block with id 0, signed like any other. -/
def forkOf (n : UInt8) : Reception :=
  .gossip { id := [n], header := some { previous := [0], height := 1 }, signature := [n] }

/-- Four blocks of one signer on one parent go unnoticed, since no two signatures are the same. -/
theorem signed_forks_undetected : ¬ DetectsForkBombs fun _ => True := by
  intro detects
  have bomb : ForkBomb ([4, 1, 2, 3].map forkOf) := by
    refine ⟨rfl, by decide, fun x first y second => ?_⟩
    obtain ⟨n, -, rfl⟩ := mem_map.mp first
    obtain ⟨m, -, rfl⟩ := mem_map.mp second
    exact ⟨rfl, rfl⟩
  have reports := detects ([forkOf 1, forkOf 2, forkOf 3].map .received) (forkOf 4) _ (by simp) trivial
    (by simp [irreversibleHeights]) bomb (by simp) (by simp)
  exact absurd reports (by decide)

end Teleno.P2p
