import Teleno.StateDb.Discard

/-! # What finalizing a node can do to the head and the fork heads

Each comparator answers with the head, the new node, or, for proof-of-burn, a fork head other than
the head that has priority over every other one and is not beaten by the head's parent. `HeadUpdate`
lists the outcomes.
-/

namespace Teleno.StateDb

open Library List Heap

namespace Heap

variable {h : Heap}

variable {a b : ℕ}

theorem priorityAlgorithm_iff : h.priorityAlgorithm a b = true ↔
    h.revision b < h.revision a ∨ h.revision a = h.revision b ∧ (h.timestamp a < h.timestamp b ∨
      h.timestamp a = h.timestamp b ∧ compare (h.id a) (h.id b) = .lt) := by
  simp only [priorityAlgorithm]
  split_ifs with higher lower earlier later
  · exact iff_of_true rfl (.inl higher)
  · exact iff_of_false not_false (by omega)
  · exact iff_of_true rfl (.inr ⟨by omega, .inl earlier⟩)
  · exact iff_of_false not_false (by omega)
  · have level : h.revision a = h.revision b := by omega
    have tie : h.timestamp a = h.timestamp b := by omega
    simp [level, tie]

/-- Not being beaten, written as the order it is. -/
theorem priorityAlgorithm_eq_false_iff : h.priorityAlgorithm b a = false ↔
    h.revision b < h.revision a ∨ h.revision a = h.revision b ∧ (h.timestamp a < h.timestamp b ∨
      h.timestamp a = h.timestamp b ∧ (compare (h.id a) (h.id b)).isLE = true) := by
  have swap : compare (h.id b) (h.id a) = .lt ↔ ¬ (compare (h.id a) (h.id b)).isLE = true := by
    have flipped : compare (h.id b) (h.id a) = (compare (h.id a) (h.id b)).swap := Std.OrientedCmp.eq_swap
    rw [flipped]
    cases compare (h.id a) (h.id b) <;> simp
  rw [← Bool.not_eq_true, priorityAlgorithm_iff, swap]
  by_cases smaller : (compare (h.id a) (h.id b)).isLE = true
  · simp only [smaller, not_true_eq_false, and_false, or_false, and_true]
    omega
  · simp only [smaller, not_false_eq_true, and_true, Bool.false_eq_true, and_false, or_false]
    omega

theorem priorityAlgorithm_self (a : ℕ) : h.priorityAlgorithm a a = false := by
  have same : compare (h.id a) (h.id a) = .eq := Std.ReflCmp.compare_self
  rw [priorityAlgorithm_eq_false_iff, same]
  exact .inr ⟨rfl, .inr ⟨rfl, rfl⟩⟩

/-- The first fork of the sorted list is not beaten by any other. -/
theorem sortForks_eq_cons {forks rest : List ℕ} {best : ℕ} (sorted : h.sortForks forks = best :: rest) :
    best ∈ forks ∧ ∀ p ∈ forks, h.priorityAlgorithm p best = false := by
  have total : Std.Total fun a b => h.priorityAlgorithm b a = false := by
    refine ⟨fun a b => ?_⟩
    rw [priorityAlgorithm_eq_false_iff, ← Bool.not_eq_true, priorityAlgorithm_iff]
    rcases order : compare (h.id a) (h.id b) with _ | _ | _ <;> simp <;> omega
  have transitive : IsTrans ℕ fun a b => h.priorityAlgorithm b a = false := by
    refine ⟨fun a b c first second => ?_⟩
    rw [priorityAlgorithm_eq_false_iff] at first second ⊢
    rcases first with higher | ⟨level, earlier | ⟨tie, smaller⟩⟩ <;>
      rcases second with higher' | ⟨level', earlier' | ⟨tie', smaller'⟩⟩ <;> try omega
    exact .inr ⟨level.trans level', .inr ⟨tie.trans tie', Std.TransCmp.isLE_trans smaller smaller'⟩⟩
  have ordered : (best :: rest).Pairwise fun a b => h.priorityAlgorithm b a = false :=
    sorted ▸ pairwise_insertionSort _ forks
  have members {p : ℕ} : p ∈ best :: rest ↔ p ∈ forks := sorted ▸ mem_insertionSort _
  refine ⟨members.mp (mem_cons_self ..), fun p listed => ?_⟩
  rcases mem_cons.mp (members.mpr listed) with rfl | later
  · exact priorityAlgorithm_self p
  · exact rel_of_pairwise_cons ordered later

/-- What beats a node beats every node that one is not beaten by. -/
theorem priorityAlgorithm_of_le {c : ℕ} (beats : h.priorityAlgorithm a b = true)
    (unbeaten : h.priorityAlgorithm c b = false) : h.priorityAlgorithm a c = true := by
  rw [priorityAlgorithm_iff] at beats ⊢
  rw [priorityAlgorithm_eq_false_iff] at unbeaten
  rcases beats with higher | ⟨level, earlier | ⟨tie, smaller⟩⟩ <;>
    rcases unbeaten with higher' | ⟨level', earlier' | ⟨tie', smaller'⟩⟩ <;> try omega
  exact .inr ⟨level.trans level', .inr ⟨tie.trans tie', Std.TransCmp.lt_of_lt_of_isLE smaller smaller'⟩⟩

theorem priorityAlgorithm_asymm (beats : h.priorityAlgorithm a b = true) : h.priorityAlgorithm b a = false := by
  rw [priorityAlgorithm_iff] at beats
  rw [priorityAlgorithm_eq_false_iff]
  rcases beats with higher | ⟨level, earlier | ⟨tie, smaller⟩⟩
  · exact .inl higher
  · exact .inr ⟨level, .inl earlier⟩
  · exact .inr ⟨level, .inr ⟨tie, by rw [smaller]; rfl⟩⟩

/-- Priority is a total order on ids: two nodes that do not beat each other have the same one. -/
theorem id_eq_of_unbeaten (left : h.priorityAlgorithm a b = false)
    (right : h.priorityAlgorithm b a = false) : h.id a = h.id b := by
  rw [priorityAlgorithm_eq_false_iff] at left right
  have tie : (compare (h.id a) (h.id b)).isLE = true ∧ (compare (h.id b) (h.id a)).isLE = true := by
    rcases left with _ | ⟨_, _ | ⟨_, small⟩⟩ <;> rcases right with _ | ⟨_, _ | ⟨_, large⟩⟩ <;> try omega
    exact ⟨large, small⟩
  exact Std.LawfulEqCmp.eq_of_compare (Std.OrientedCmp.isLE_antisymm tie.1 tie.2)

private theorem mem_eraseP_id {forks : List ℕ} (distinct : (forks.map h.id).Nodup) {p : ℕ} {id : Multihash} :
    p ∈ forks.eraseP (fun q => h.id q == id) ↔ p ∈ forks ∧ h.id p ≠ id := by
  induction forks with
  | nil => simp
  | cons q rest ih =>
    rw [map_cons, nodup_cons] at distinct
    by_cases here : h.id q = id
    · rw [eraseP_cons_of_pos (by simpa using here), mem_cons]
      constructor
      · intro later
        refine ⟨.inr later, fun same => distinct.1 ?_⟩
        rw [here, ← same]
        exact mem_map_of_mem later
      · rintro ⟨rfl | later, other⟩
        · exact absurd here other
        · exact later
    · rw [eraseP_cons_of_neg (by simpa using here), mem_cons, mem_cons, ih distinct.2]
      constructor
      · rintro (rfl | ⟨later, other⟩)
        · exact ⟨.inl rfl, here⟩
        · exact ⟨.inr later, other⟩
      · rintro ⟨rfl | later, other⟩
        · exact .inl rfl
        · exact .inr ⟨later, other⟩

section Pob

variable {forks : List ℕ} {head node : ℕ}

/-- An answer for two blocks of one signer is the best of the other fork heads. -/
theorem pobComparator_eq_some (distinct : (forks.map h.id).Nodup) (signers : h.signer head = h.signer node) {best : ℕ}
    (chosen : h.pobComparator forks head node = some best) :
    best ∈ forks ∧ h.id best ≠ h.id head ∧
      (∀ p ∈ forks, h.id p ≠ h.id head → h.priorityAlgorithm p best = false) ∧
      ∃ parent, (h.cell head).parent = some parent ∧ h.priorityAlgorithm parent best = false := by
  rw [pobComparator, if_neg (not_not.mpr signers)] at chosen
  cases sorted : h.sortForks (forks.eraseP fun p => h.id p == h.id head) with
  | nil => simp [sorted] at chosen
  | cons first rest =>
    simp only [sorted, Option.bind_eq_some_iff] at chosen
    obtain ⟨parent, up, chosen⟩ := chosen
    split_ifs at chosen with beaten
    cases chosen
    obtain ⟨listed, unbeaten⟩ := sortForks_eq_cons sorted
    obtain ⟨fork, other⟩ := (mem_eraseP_id distinct).mp listed
    exact ⟨fork, other, fun p fork other => unbeaten p ((mem_eraseP_id distinct).mpr ⟨fork, other⟩),
      parent, up, Bool.not_eq_true _ ▸ beaten⟩

/-- No answer means that one signer made both blocks and the head's parent beats the other forks. -/
theorem pobComparator_eq_none (distinct : (forks.map h.id).Nodup) (declined : h.pobComparator forks head node = none)
    {parent : ℕ} (up : (h.cell head).parent = some parent) :
    h.signer head = h.signer node ∧
      ∀ p ∈ forks, h.id p ≠ h.id head → h.priorityAlgorithm parent p = true := by
  rw [pobComparator] at declined
  split_ifs at declined with signers
  refine ⟨not_not.mp signers, fun p fork other => ?_⟩
  have listed := (mem_eraseP_id distinct).mpr ⟨fork, other⟩
  cases sorted : h.sortForks (forks.eraseP fun p => h.id p == h.id head) with
  | nil =>
    have members : p ∈ h.sortForks (forks.eraseP fun p => h.id p == h.id head) := (mem_insertionSort _).mpr listed
    rw [sorted] at members
    contradiction
  | cons first rest =>
    simp only [sorted, up, Option.bind_some, ite_eq_left_iff, reduceCtorEq, imp_false, not_not] at declined
    exact priorityAlgorithm_of_le declined ((sortForks_eq_cons sorted).2 p listed)

end Pob

end Heap

namespace Database

variable {db db' : Database} {algo : ForkResolution} {node : ℕ}

/-- Every entry of the fork heads stands under its own id. -/
def ForkIds (db : Database) : Prop := ∀ id p, db.forkHeads[id]? = some p → db.heap.id p = id

theorem mem_forkList_iff {p : ℕ} : p ∈ db.forkList ↔ ∃ id : Multihash, db.forkHeads[id]? = some p := by
  simp [forkList]

theorem ForkIds.mem_forkList (named : db.ForkIds) {p : ℕ} : p ∈ db.forkList ↔ db.forkHeads[db.heap.id p]? = some p := by
  rw [mem_forkList_iff]
  constructor
  · rintro ⟨id, found⟩
    rw [named id p found]
    exact found
  · exact fun found => ⟨_, found⟩

theorem ForkIds.nodup_forkList (named : db.ForkIds) : (db.forkList.map db.heap.id).Nodup := by
  have keys : db.forkList.map db.heap.id = db.forkHeads.keys := by
    rw [forkList, map_map, ← Std.ExtTreeMap.map_fst_toList_eq_keys]
    refine map_congr_left fun entry listed => ?_
    exact named entry.1 entry.2 (Std.ExtTreeMap.mem_toList_iff_getElem?_eq_some.mp listed)
  rw [keys]
  exact Std.ExtTreeMap.nodup_keys

/-- The possible new heads, with what the comparison found and the fork heads left by it. -/
inductive HeadUpdate (algo : ForkResolution) (db : Database) (node : ℕ) : ℕ → ForkHeads → Prop
  | higher (above : db.heap.revision db.head < db.heap.revision node) :
      HeadUpdate algo db node node db.forkHeads
  | lower (below : db.heap.revision node < db.heap.revision db.head) :
      HeadUpdate algo db node db.head db.forkHeads
  | stays (level : db.heap.revision node = db.heap.revision db.head)
      (later : algo ≠ .fifo → db.heap.timestamp db.head ≤ db.heap.timestamp node)
      (signers : algo = .pob → db.heap.signer db.head ≠ db.heap.signer node) :
      HeadUpdate algo db node db.head db.forkHeads
  | takes (level : db.heap.revision node = db.heap.revision db.head)
      (earlier : db.heap.timestamp node < db.heap.timestamp db.head) (compares : algo ≠ .fifo)
      (signers : algo = .pob → db.heap.signer db.head ≠ db.heap.signer node) :
      HeadUpdate algo db node node db.forkHeads
  | best {best parent : ℕ} (level : db.heap.revision node = db.heap.revision db.head) (burns : algo = .pob)
      (signers : db.heap.signer db.head = db.heap.signer node) (fork : best ∈ db.forkList)
      (other : db.heap.id best ≠ db.heap.id db.head)
      (unbeaten : ∀ p ∈ db.forkList, db.heap.id p ≠ db.heap.id db.head →
        db.heap.priorityAlgorithm p best = false)
      (up : (db.heap.cell db.head).parent = some parent)
      (parent_unbeating : db.heap.priorityAlgorithm parent best = false) :
      HeadUpdate algo db node best db.forkHeads
  | fallback {parent : ℕ} (level : db.heap.revision node = db.heap.revision db.head) (burns : algo = .pob)
      (signers : db.heap.signer db.head = db.heap.signer node)
      (up : (db.heap.cell db.head).parent = some parent)
      (beats : ∀ p ∈ db.forkList, db.heap.id p ≠ db.heap.id db.head →
        db.heap.priorityAlgorithm parent p = true) :
      HeadUpdate algo db node parent
        ((db.forkHeads.erase (db.heap.id db.head)).insert (db.heap.id parent) parent)

private theorem headUpdate_of_some (named : db.ForkIds) (level : db.heap.revision node = db.heap.revision db.head)
    {newHead : ℕ} (chosen : db.heap.comparator algo db.forkList db.head node = some newHead) :
    HeadUpdate algo db node newHead db.forkHeads := by
  cases algo with
  | fifo =>
    cases chosen
    exact .stays level (fun compares => absurd rfl compares) (fun burns => absurd burns (by decide))
  | blockTime =>
    simp only [comparator, blockTimeComparator, Option.some.injEq] at chosen
    split_ifs at chosen with earlier
    · exact chosen ▸ .takes level earlier (by decide) (fun burns => absurd burns (by decide))
    · exact chosen ▸ .stays level (fun _ => Nat.not_lt.mp earlier) (fun burns => absurd burns (by decide))
  | pob =>
    by_cases signers : db.heap.signer db.head = db.heap.signer node
    · obtain ⟨fork, other, unbeaten, parent, up, unbeating⟩ :=
        pobComparator_eq_some named.nodup_forkList signers chosen
      exact .best level rfl signers fork other unbeaten up unbeating
    · simp only [comparator, pobComparator, Ne, signers, not_false_eq_true, if_true,
        Option.some.injEq] at chosen
      split_ifs at chosen with earlier
      · exact chosen ▸ .takes level earlier (by decide) (fun _ => signers)
      · exact chosen ▸ .stays level (fun _ => Nat.not_lt.mp earlier) (fun _ => signers)

private theorem headUpdate_of_none (named : db.ForkIds) (level : db.heap.revision node = db.heap.revision db.head)
    (declined : db.heap.comparator algo db.forkList db.head node = none) {parent : ℕ}
    (up : (db.heap.cell db.head).parent = some parent) :
    HeadUpdate algo db node parent
      ((db.forkHeads.erase (db.heap.id db.head)).insert (db.heap.id parent) parent) := by
  cases algo with
  | fifo | blockTime => cases declined
  | pob =>
    obtain ⟨signers, beats⟩ := pobComparator_eq_none named.nodup_forkList declined up
    exact .fallback level rfl signers up beats

/-- Choosing the head has one of the listed outcomes. -/
theorem headUpdate_of_updateHead (named : db.ForkIds) (ran : db.updateHead algo node = (.ok (), db')) :
    ∃ head forkHeads, HeadUpdate algo db node head forkHeads ∧ db' = { db with head, forkHeads } := by
  rw [updateHead] at ran
  split_ifs at ran with above level
  · cases ran
    exact ⟨_, _, .higher above, rfl⟩
  · cases answer : db.heap.comparator algo db.forkList db.head node with
    | some newHead =>
      simp only [answer] at ran
      cases ran
      exact ⟨_, _, headUpdate_of_some named level answer, rfl⟩
    | none =>
      cases up : (db.heap.cell db.head).parent with
      | none =>
        simp only [answer, up] at ran
        cases ran
      | some parent =>
        simp only [answer, up] at ran
        cases ran
        exact ⟨_, _, headUpdate_of_none named level answer up, rfl⟩
  · cases ran
    exact ⟨_, _, .lower (by omega), rfl⟩

/-- The head can be chosen unless a head without parent meets a node of its own revision. -/
theorem updateHead_ok (inner : db.heap.revision node = db.heap.revision db.head →
    (db.heap.cell db.head).parent ≠ none) : ∃ db', db.updateHead algo node = (.ok (), db') := by
  rw [updateHead]
  split_ifs with above level
  · exact ⟨_, rfl⟩
  · obtain ⟨parent, up⟩ := Option.ne_none_iff_exists'.mp (inner level)
    cases answer : db.heap.comparator algo db.forkList db.head node with
    | some newHead => exact ⟨_, rfl⟩
    | none => simp [up]
  · exact ⟨_, rfl⟩

theorem markFinalized_cell (db : Database) (node p : ℕ) : (db.markFinalized node).heap.cell p =
    if p = node then { db.heap.cell node with finalized := true } else db.heap.cell p := by
  rw [markFinalized, LinkedStore.cell_modify]

section

variable (db : Database) (node p : ℕ)

@[simp] theorem head_markFinalized : (db.markFinalized node).head = db.head := rfl

@[simp] theorem parent_markFinalized : ((db.markFinalized node).heap.cell p).parent = (db.heap.cell p).parent := by
  rw [markFinalized_cell]
  split <;> simp_all

@[simp] theorem id_markFinalized : (db.markFinalized node).heap.id p = db.heap.id p := by
  simp only [Heap.id, markFinalized_cell]
  split <;> simp_all

@[simp] theorem revision_markFinalized : (db.markFinalized node).heap.revision p = db.heap.revision p := by
  simp only [revision, markFinalized_cell]
  split <;> simp_all

@[simp] theorem blockHeader_markFinalized :
    ((db.markFinalized node).heap.cell p).blockHeader = (db.heap.cell p).blockHeader := by
  simp only [StateDelta.blockHeader, markFinalized_cell]
  split <;> simp_all

@[simp] theorem timestamp_markFinalized : (db.markFinalized node).heap.timestamp p = db.heap.timestamp p :=
  congrArg BlockHeader.timestamp (db.blockHeader_markFinalized node p)

@[simp] theorem signer_markFinalized : (db.markFinalized node).heap.signer p = db.heap.signer p :=
  congrArg BlockHeader.signer (db.blockHeader_markFinalized node p)

@[simp] theorem path_markFinalized : (db.markFinalized node).heap.path p = db.heap.path p :=
  db.heap.path_congr _ (fun q _ => db.parent_markFinalized node q)

@[simp] theorem priorityAlgorithm_markFinalized (q : ℕ) :
    (db.markFinalized node).heap.priorityAlgorithm p q = db.heap.priorityAlgorithm p q := by
  simp [priorityAlgorithm]

theorem finalized_markFinalized : ((db.markFinalized node).heap.cell p).finalized = true ↔
    p = node ∨ (db.heap.cell p).finalized = true := by
  rw [markFinalized_cell]
  split <;> simp_all

theorem updateForkHeads_heap : (db.updateForkHeads node).heap = db.heap := by
  rw [updateForkHeads]
  split <;> rfl

theorem updateForkHeads_index : (db.updateForkHeads node).index = db.index := by
  rw [updateForkHeads]
  split <;> rfl

theorem updateForkHeads_root : (db.updateForkHeads node).root = db.root := by
  rw [updateForkHeads]
  split <;> rfl

theorem updateForkHeads_head : (db.updateForkHeads node).head = db.head := by
  rw [updateForkHeads]
  split <;> rfl

end

/-- A known node can be finalized unless it has the revision of a head without parent. -/
theorem finalizeNode_ok {nodeId : Multihash} {node : ℕ} (found : db.getNode nodeId = some node)
    (inner : db.heap.revision node = db.heap.revision db.head → (db.heap.cell db.head).parent ≠ none) :
    ∃ db', db.finalizeNode algo nodeId = (.ok (), db') := by
  obtain ⟨chosen, ran⟩ := @updateHead_ok (db.markFinalized node) algo node (by simpa using inner)
  exact ⟨chosen.updateForkHeads node, by simp [finalizeNode, found, ran]⟩

/-- Finalizing marks the node, chooses the head and then updates the fork heads. -/
theorem finalizeNode_eq (named : db.ForkIds) {nodeId : Multihash}
    (success : db.finalizeNode algo nodeId = (.ok (), db')) :
    ∃ node, db.getNode nodeId = some node ∧ ∃ head forkHeads,
      HeadUpdate algo (db.markFinalized node) node head forkHeads ∧
      db' = { db.markFinalized node with head, forkHeads }.updateForkHeads node := by
  rw [finalizeNode] at success
  cases found : db.getNode nodeId with
  | none =>
    simp only [found] at success
    cases success
  | some node =>
    have named' : (db.markFinalized node).ForkIds := by
      intro id p entry
      rw [id_markFinalized]
      exact named id p entry
    cases chosen : (db.markFinalized node).updateHead algo node with
    | mk result db₁ =>
      cases result with
      | error e =>
        simp only [found, chosen] at success
        cases success
      | ok =>
        obtain ⟨head, forkHeads, update, rfl⟩ := headUpdate_of_updateHead named' chosen
        simp only [found, chosen] at success
        cases success
        exact ⟨node, rfl, head, forkHeads, update, rfl⟩

end Database

end Teleno.StateDb
