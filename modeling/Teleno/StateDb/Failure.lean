import Teleno.StateDb.Removal

/-! # Discards and commits that throw

A discard that would remove the head throws when the queue reaches it. By then the fork heads ahead
of it in the queue are gone, so the call is a no-op exactly when there are none. A commit replaces
the root before anything can fail; unless it refuses an unknown node, a failure leaves the new root
behind.
-/

namespace Teleno.StateDb

open Library

namespace Database

/-- The four structures a discard works on. -/
def SameForks (db db' : Database) : Prop :=
  db'.index = db.index ∧ db'.forkHeads = db.forkHeads ∧ db'.head = db.head ∧ db'.root = db.root

/-- No fork head is queued ahead of the head when the subtree of `nodeId` is walked level by level. -/
def NoForkBeforeHead (db : Database) (nodeId : Multihash) : Prop :=
  ∀ node, db.getNode nodeId = some node → node ≠ db.root → node ∈ db.heap.path db.head →
    ∀ id, Precedes db.childIds [nodeId] id (db.heap.id db.head) → db.forkHeads[id]? = none

/-- A discard that throws leaves index, fork heads, head and root alone exactly when no fork head
precedes the head in the subtree. -/
theorem discardNode_error_unchanged_iff (codec : KeyCodec) (crypto : Crypto) (algo : ForkResolution)
    (db : Database) (reached : (databaseMachine codec crypto algo).Reachable (fun _ _ => True) db)
    (nodeId : Multihash) :
    (∀ e db', db.discardNode nodeId = (.error e, db') → db.SameForks db') ↔ db.NoForkBeforeHead nodeId := by
  have wf := wellFormed_of_reachable reached
  cases found : db.getNode nodeId with
  | none =>
    refine iff_of_true (fun e db' failure => ?_) (fun node known => ?_)
    · simp only [discardNode, discardNodeLockless, found] at failure
      cases failure
    · rw [found] at known
      contradiction
  | some node =>
    obtain ⟨mem, rfl⟩ := wf.getNode_iff.mp found
    have same {other : ℕ} (known : db.getNode (db.heap.id node) = some other) : other = node :=
      Option.some.inj (known.symm.trans found)
    rcases eq_or_ne node db.root with rfl | inner
    · refine iff_of_true (fun e db' failure => ?_) (fun other known proper => absurd (same known) proper)
      simp only [discardNode, discardNodeLockless, found, if_true] at failure
      cases failure
      exact ⟨rfl, rfl, rfl, rfl⟩
    by_cases below : node ∈ db.heap.path db.head
    · obtain ⟨forkHeads, failure, -, passed, others⟩ := discardNodeLockless_of_head_below
        wf.tree.forest mem db.harmless_nil
        (fun equal => inner (wf.tree.id_inj node mem db.root wf.tree.root_mem equal)) wf.head_mem below
      rw [discardNode, failure]
      constructor
      · intro unchanged _ _ _ _ id earlier
        have kept : forkHeads = db.forkHeads := (unchanged _ _ rfl).2.1
        rw [← kept]
        exact passed id earlier
      · rintro clear e db' ⟨⟩
        refine ⟨rfl, Std.ExtTreeMap.ext_getElem? (fun id => ?_), rfl, rfl⟩
        by_cases earlier : Precedes db.childIds [db.heap.id node] id (db.heap.id db.head)
        · exact (passed id earlier).trans (clear node found inner below id earlier).symm
        · exact others id earlier
    · refine iff_of_true (fun e db' failure => ?_) (fun other known _ above => ?_)
      · obtain ⟨_, -, _, -, -, ⟨-, success⟩ | ⟨-, success⟩⟩ := wf.discardNode_eq mem inner below
        · rw [success] at failure
          cases failure
        · rw [success] at failure
          cases failure
      · exact absurd (same known ▸ above) below

/-- Two children of one node, the head created last but finalized first. -/
def siblingForks : List DbOp := [
  .createWritableNode .zero [1] {}, .finalizeNode [1], .createWritableNode [1] [2] {},
  .createWritableNode [1] [3] {}, .finalizeNode [3], .finalizeNode [2]]

theorem discardNode_error_unchanged_iff_of_siblingForks :
    ∃ db, openEmpty.run .transparent .transparent .fifo siblingForks = some db ∧
      ∀ e db', db.discardNode [3] = (.error e, db') → db.SameForks db' := by
  have ran : (openEmpty.run .transparent .transparent .fifo siblingForks).any
      (fun db => decide (db.getNode [3] = some 3 ∧ db.head = 3 ∧ db.childIds [3] = [] ∧
        db.heap.id 3 = [3])) = true := by decide
  obtain ⟨db, ran, reached, found, head, leaf, name⟩ := exists_run ran
  refine ⟨db, ran, (discardNode_error_unchanged_iff _ _ _ db reached [3]).mpr ?_⟩
  intro node known _ _ id earlier
  rw [head, name] at earlier
  have empty (depth : ℕ) : generation db.childIds [[3]] (1 + depth) = [] :=
    generation_eq_nil_of_add (by simp [generation, leaf])
  rcases earlier with ⟨i, j, before, -, late⟩ | ⟨i, before, after, split, listed⟩
  · obtain ⟨depth, rfl⟩ := Nat.exists_eq_add_of_le (show 1 ≤ j by omega)
    rw [empty] at late
    contradiction
  · cases i with
    | zero =>
      cases before with
      | nil => contradiction
      | cons first rest =>
        have length := congrArg List.length split
        simp [generation] at length
    | succ i =>
      rw [Nat.add_comm, empty] at split
      simp at split

/-- Discarding the common parent throws but forgets the sibling among the fork heads. -/
theorem discardNode_error_forgets_fork :
    ∃ db, (databaseMachine .transparent .transparent .fifo).Reachable (fun _ _ => True) db ∧
      ∃ db', db.discardNode [1] = (.error .cannotDiscard, db') ∧
        db.forkHeads[([2] : Multihash)]? = some 2 ∧ db'.forkHeads[([2] : Multihash)]? = none := by
  have ran : (openEmpty.run .transparent .transparent .fifo siblingForks).any (fun db =>
      decide ((db.discardNode [1]).1 = .error .cannotDiscard ∧ db.forkHeads[([2] : Multihash)]? = some 2 ∧
        (db.discardNode [1]).2.forkHeads[([2] : Multihash)]? = none)) = true := by decide
  obtain ⟨db, -, reached, err, facts⟩ := exists_run ran
  exact ⟨db, reached, _, Prod.ext err rfl, facts⟩

/-- What a commit may change: the four structures, the root's backend with its disk, and the answers
of the indexed nodes. -/
def SameState (codec : KeyCodec) (db db' : Database) : Prop :=
  db.SameForks db' ∧ (db'.heap.cell db'.root).backend = (db.heap.cell db.root).backend ∧
    ∀ p ∈ db.index, ∀ space key, db'.heap.getObject codec p space key = db.heap.getObject codec p space key

/-- The node is unknown or the root already, or the head descends from it and the batch, if the
root's backend has a disk, is accepted. -/
def CommitGoesThrough (db : Database) (nodeId : Multihash) (accepted : Bool) : Prop :=
  db.getNode nodeId = none ∨ nodeId = db.heap.id db.root ∨
    ∃ node, db.getNode nodeId = some node ∧ node ∈ db.heap.path db.head ∧
      (accepted = true ∨ ∀ b, (db.heap.cell db.root).backend = some b → b.rocksdb = none)

/-- A commit that throws leaves everything alone exactly when it only refuses an unknown node: a
rejected batch or a head outside the subtree is found after the root has been replaced. -/
theorem commitNode_error_unchanged_iff (codec : KeyCodec) (crypto : Crypto) (algo : ForkResolution)
    (db : Database) (reached : (databaseMachine codec crypto algo).Reachable (fun _ _ => True) db)
    (nodeId : Multihash) (accepted : Bool) :
    (∀ e db', db.commitNode crypto nodeId accepted = (.error e, db') → db.SameState codec db') ↔
      db.CommitGoesThrough nodeId accepted := by
  have wf := wellFormed_of_reachable reached
  rcases eq_or_ne nodeId (db.heap.id db.root) with rfl | other
  · refine iff_of_true (fun e db' failure => ?_) (.inr (.inl rfl))
    rw [commitNode, if_pos rfl] at failure
    cases failure
  cases found : db.getNode nodeId with
  | none =>
    refine iff_of_true (fun e db' failure => ?_) (.inl found)
    simp only [commitNode, if_neg other, found] at failure
    cases failure
    exact ⟨⟨rfl, rfl, rfl, rfl⟩, rfl, fun _ _ _ _ => rfl⟩
  | some node =>
    obtain ⟨mem, rfl⟩ := wf.getNode_iff.mp found
    have inner : node ≠ db.root := fun same => other (same ▸ rfl)
    obtain ⟨b, owned, synced⟩ := wf.root_backend
    have replaced {e : StateDbError} {db' : Database}
        (failure : db.commitNode crypto (db.heap.id node) accepted = (.error e, db'))
        (root : db'.root = node) :
        ¬ ∀ e db', db.commitNode crypto (db.heap.id node) accepted = (.error e, db') →
          db.SameState codec db' :=
      fun unchanged => inner (root.symm.trans (unchanged e db' failure).1.2.2.2)
    have refused (fails : ¬ (node ∈ db.heap.path db.head ∧ (accepted = true ∨ b.rocksdb = none))) :
        ¬ db.CommitGoesThrough (db.heap.id node) accepted := by
      rintro (unknown | root | ⟨node', known, below, accepts⟩)
      · rw [found] at unknown
        contradiction
      · exact other root
      · obtain rfl := Option.some.inj (known.symm.trans found)
        exact fails ⟨below, accepts.imp_right fun idle => idle b owned⟩
    by_cases accepts : accepted = true ∨ b.rocksdb = none
    · obtain ⟨h', new, ran, committed⟩ := wf.commit_accepted crypto mem inner owned synced accepts
      by_cases below : node ∈ db.heap.path db.head
      · obtain ⟨_, -, success⟩ := wf.commitNode_of_head_below mem inner committed ran below
        refine iff_of_true (fun e db' failure => ?_) (.inr (.inr ⟨node, found, below, accepts.imp_right ?_⟩))
        · rw [success] at failure
          cases failure
        · intro idle b' owned'
          rw [← Option.some.inj (owned.symm.trans owned')]
          exact idle
      · obtain ⟨_, failure, root⟩ := wf.commitNode_of_head_elsewhere mem inner committed ran below
        exact iff_of_false (replaced failure root) (refused fun through => below through.1)
    · rw [not_or, Bool.not_eq_true] at accepts
      obtain ⟨rfl, disk⟩ := accepts
      obtain ⟨_, failure, root⟩ := wf.commitNode_of_rejected crypto mem inner owned synced disk
      exact iff_of_false (replaced failure root)
        (refused fun through => disk (through.2.resolve_left Bool.false_ne_true))

/-- Two children of the root, the first of them the head. -/
def rootForks : List DbOp := [
  .createWritableNode .zero [1] {}, .finalizeNode [1], .createWritableNode .zero [2] {}, .finalizeNode [2]]

theorem commitNode_error_unchanged_iff_of_rootForks :
    ∃ db, openEmpty.run .transparent .transparent .fifo rootForks = some db ∧
      ∀ e db', db.commitNode .transparent [3] true = (.error e, db') → db.SameState .transparent db' := by
  have ran : (openEmpty.run .transparent .transparent .fifo rootForks).any
      (fun db => decide (db.getNode [3] = none)) = true := by decide
  obtain ⟨db, ran, reached, unknown⟩ := exists_run ran
  exact ⟨db, ran, (commitNode_error_unchanged_iff _ _ _ db reached [3] true).mpr (.inl unknown)⟩

/-- Committing the sibling of the head throws but makes the sibling the root. -/
theorem commitNode_error_replaces_root :
    ∃ db, (databaseMachine .transparent .transparent .fifo).Reachable (fun _ _ => True) db ∧
      ∃ db', db.commitNode .transparent [2] true = (.error .cannotDiscard, db') ∧
        db.root = 0 ∧ db'.root = 2 := by
  have ran : (openEmpty.run .transparent .transparent .fifo rootForks).any (fun db =>
      decide ((db.commitNode .transparent [2] true).1 = .error .cannotDiscard ∧ db.root = 0 ∧
        (db.commitNode .transparent [2] true).2.root = 2)) = true := by decide
  obtain ⟨db, -, reached, err, facts⟩ := exists_run ran
  exact ⟨db, reached, _, Prod.ext err rfl, facts⟩

end Database

end Teleno.StateDb
