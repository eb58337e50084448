import Teleno.BlockStore.Store
import Teleno.StateDb.Removal

/-! # The order in which fork heads are reported

`get_fork_data` sorts the topologies of the fork heads by height. The search for the head block that follows starts
at the front of the list and stops there.
-/

namespace Teleno.Chain

open StateDb BlockStore List

/-- What `std::sort` guarantees for the comparison of heights. -/
structure SortsByHeight (sort : List BlockTopology → List BlockTopology) : Prop where
  perm : ∀ topologies, (sort topologies).Perm topologies
  ordered : ∀ topologies, (sort topologies).Pairwise fun a b => b.height.toNat ≤ a.height.toNat

/-- The loop that looks for an id, with the number of rounds it may take. -/
def advanceForkItr (topologies : List BlockTopology) (id : Bytes) : ℕ → ℕ → ℕ
  | 0, itr => itr
  | fuel + 1, itr =>
    if itr ≠ 0 ∧ topologies[itr]?.map BlockTopology.id ≠ some id then advanceForkItr topologies id fuel (itr + 1)
    else itr

/-- `std::iter_swap` with the first element. -/
def swapFront (topologies : List BlockTopology) (itr : ℕ) : List BlockTopology :=
  match topologies[0]?, topologies[itr]? with
  | some front, some found => (topologies.set itr front).set 0 found
  | _, _ => topologies

variable (sort : List BlockTopology → List BlockTopology) (headInfo : ℕ → BlockTopology) (db : Database)

/-- The topologies of the fork heads and of the root, as `get_head_info` gives them on a node. The id that is looked
for is the root's. -/
def getForkData : List BlockTopology × BlockTopology :=
  let rootTopology := headInfo db.root
  let topologies := sort (db.forkList.map headInfo)
  let forkItr := advanceForkItr topologies rootTopology.id topologies.length 0
  (if forkItr ≠ 0 then swapFront topologies forkItr else topologies, rootTopology)

/-- The head is a fork head and none is higher. -/
structure HeadHighest : Prop where
  listed : db.head ∈ db.forkList
  highest : ∀ p ∈ db.forkList, (headInfo p).height.toNat ≤ (headInfo db.head).height.toNat

/-- The fork heads by height, the database's head first among the highest, and the root. -/
structure ReportsForks (data : List BlockTopology × BlockTopology) : Prop where
  perm : data.1.Perm (db.forkList.map headInfo)
  ordered : data.1.Pairwise fun a b => b.height.toNat ≤ a.height.toNat
  headFirst : HeadHighest headInfo db → data.1.head? = some (headInfo db.head)
  root : data.2 = headInfo db.root

/-- No other fork head is as high as the head. -/
def HeadUntied : Prop := HeadHighest headInfo db → ∀ p ∈ db.forkList,
  (headInfo p).height.toNat = (headInfo db.head).height.toNat → headInfo p = headInfo db.head

variable {sort headInfo db}

theorem getForkData_eq : getForkData sort headInfo db = (sort (db.forkList.map headInfo), headInfo db.root) := by
  have stays (topologies : List BlockTopology) (id : Bytes) (fuel : ℕ) :
      advanceForkItr topologies id fuel 0 = 0 := by
    cases fuel <;> simp [advanceForkItr]
  simp [getForkData, stays]

/-- The order by height in which one topology comes before those as high as it. -/
def Favours (front a b : BlockTopology) : Prop :=
  b.height.toNat < a.height.toNat ∨ a.height.toNat = b.height.toNat ∧ (a = front ∨ b ≠ front)

instance (front : BlockTopology) : DecidableRel (Favours front) := fun _ _ => inferInstanceAs (Decidable (_ ∨ _))

instance (front : BlockTopology) : Std.Total (Favours front) := ⟨by grind [Favours]⟩

instance (front : BlockTopology) : IsTrans BlockTopology (Favours front) := ⟨by grind [Favours]⟩

/-- Any of the highest fork heads may come first. -/
theorem exists_sort_head {p : ℕ} (listed : p ∈ db.forkList)
    (highest : ∀ q ∈ db.forkList, (headInfo q).height.toNat ≤ (headInfo p).height.toNat) :
    ∃ sort, SortsByHeight sort ∧ (sort (db.forkList.map headInfo)).head? = some (headInfo p) := by
  let before := Favours (headInfo p)
  refine ⟨fun l => l.insertionSort before, ⟨fun l => l.perm_insertionSort before, fun l => ?_⟩, ?_⟩
  · exact (pairwise_insertionSort before l).imp fun first => by grind [Favours]
  · dsimp only
    have ordered := pairwise_insertionSort before (db.forkList.map headInfo)
    have inside := (mem_insertionSort before).mpr (mem_map_of_mem (f := headInfo) listed)
    cases sorted : (db.forkList.map headInfo).insertionSort before with
    | nil => simp [sorted] at inside
    | cons first rest =>
      obtain ⟨q, known, rfl⟩ := mem_map.mp ((mem_insertionSort before).mp (sorted ▸ mem_cons_self))
      rw [sorted] at inside ordered
      rcases mem_cons.mp inside with isFirst | later
      · exact congrArg some isFirst.symm
      · have isBefore := rel_of_pairwise_cons ordered later
        grind [Favours]

/-- However ties are sorted, the fork heads are reported in order exactly if the head is not tied. -/
theorem reportsForks_iff (headInfo : ℕ → BlockTopology) (db : Database) :
    (∀ sort, SortsByHeight sort → ReportsForks headInfo db (getForkData sort headInfo db)) ↔
      HeadUntied headInfo db := by
  simp only [getForkData_eq]
  constructor
  · intro reports head p listed tied
    obtain ⟨sort, sorts, first⟩ := exists_sort_head listed fun q inside => tied ▸ head.highest q inside
    have headFirst := (reports sort sorts).headFirst head
    exact Option.some.inj (first.symm.trans headFirst)
  · intro untied sort sorts
    refine ⟨sorts.perm _, sorts.ordered _, fun head => ?_, rfl⟩
    have ordered := sorts.ordered (db.forkList.map headInfo)
    have same {t : BlockTopology} : t ∈ sort (db.forkList.map headInfo) ↔ ∃ p ∈ db.forkList, headInfo p = t :=
      (sorts.perm _).mem_iff.trans mem_map
    have inside := same.mpr ⟨db.head, head.listed, rfl⟩
    cases sorted : sort (db.forkList.map headInfo) with
    | nil => simp [sorted] at inside
    | cons first rest =>
      obtain ⟨p, listed, rfl⟩ := same.mp (sorted ▸ mem_cons_self)
      rw [sorted] at inside ordered
      rcases mem_cons.mp inside with isFirst | later
      · exact congrArg some isFirst.symm
      · have above := rel_of_pairwise_cons ordered later
        exact congrArg some (untied head p listed (le_antisymm (head.highest p listed) above))

/-- A stable sort. -/
def sortByHeight (topologies : List BlockTopology) : List BlockTopology :=
  topologies.insertionSort fun a b => b.height.toNat ≤ a.height.toNat

theorem sortsByHeight_sortByHeight : SortsByHeight sortByHeight where
  perm := perm_insertionSort _
  ordered topologies := by
    have total : Std.Total fun a b : BlockTopology => b.height.toNat ≤ a.height.toNat := ⟨fun _ _ => le_total _ _⟩
    have trans : IsTrans BlockTopology fun a b => b.height.toNat ≤ a.height.toNat := ⟨fun _ _ _ => ge_trans⟩
    exact pairwise_insertionSort _ topologies

/-- Two blocks on the root, of which the first one stays the head. -/
def tiedForks : List DbOp :=
  [.createWritableNode .zero [2] {}, .finalizeNode [2], .createWritableNode .zero [1] {}, .finalizeNode [1]]

/-- What `get_head_info` gives on a node without an override. -/
def topologyOf (db : Database) (p : ℕ) : BlockTopology :=
  { id := db.heap.id p, height := (db.heap.revision p).toUInt64 }

/-- The fork heads are listed by id, and the stable sort leaves the head behind the other one. -/
theorem tied_head_not_first : ∃ db, Database.openEmpty.run .transparent .transparent .fifo tiedForks = some db ∧
    SortsByHeight sortByHeight ∧
    ¬ ReportsForks (topologyOf db) db (getForkData sortByHeight (topologyOf db) db) := by
  have ran : (Database.openEmpty.run .transparent .transparent .fifo tiedForks).any (fun db => decide
      (db.head ∈ db.forkList ∧
        (∀ q ∈ db.forkList, (topologyOf db q).height.toNat ≤ (topologyOf db db.head).height.toNat) ∧
        (getForkData sortByHeight (topologyOf db) db).1.map BlockTopology.id = [[1], [2]] ∧
        (topologyOf db db.head).id = [2])) = true := by
    decide +kernel
  obtain ⟨db, ran, listed, highest, reported, head⟩ := Library.exists_of_any ran
  refine ⟨db, ran, sortsByHeight_sortByHeight, fun reports => ?_⟩
  have headFirst := congrArg (Option.map BlockTopology.id) (reports.headFirst ⟨listed, highest⟩)
  rw [← head?_map, reported, Option.map_some, head] at headFirst
  contradiction

end Teleno.Chain
