import Teleno.StateDb.Removal

/-! # Operations that finalize nothing

Every operation but `finalizeNode` keeps the head, and the finalized nodes it leaves were there
before, with the same headers and at most their old parents. Fork heads only disappear, except that
a discard may make the parent of the discarded node a fork head.
-/

namespace Teleno.StateDb

open Library

namespace Database

/-- What an operation that finalizes nothing leaves of the nodes and the fork heads. -/
structure Quiet (db : Database) (op : DbOp) (db' : Database) : Prop where
  head_eq : db'.head = db.head
  parents : ∀ p ∈ db.index, ∀ q, (db'.heap.cell p).parent = some q → (db.heap.cell p).parent = some q
  blocks : ∀ p ∈ db'.index, (db'.heap.cell p).finalized = true → p ∈ db.index ∧
    (db.heap.cell p).finalized = true ∧ db'.heap.revision p = db.heap.revision p ∧
    db'.heap.signer p = db.heap.signer p
  forks : ∀ (id : Multihash) (q : ℕ), db'.forkHeads[id]? = some q → db.forkHeads[id]? = some q ∨
    ∃ s ∈ db.index, op = .discardNode (db.heap.id s) ∧ (db.heap.cell s).parent = some q ∧
      (∀ p ∈ db.index, (db.heap.cell p).parent = some q → p = s) ∧
      ∀ p ∈ db'.index, (db'.heap.cell p).parent ≠ some q

namespace Quiet

variable {db db' : Database} {op : DbOp}

theorem refl (db : Database) (op : DbOp) : db.Quiet op db where
  head_eq := rfl
  parents _ _ _ up := up
  blocks _ mem done := ⟨mem, done, rfl, rfl⟩
  forks _ _ entry := .inl entry

/-- A new node that is not finalized goes unnoticed. -/
private theorem push (tree : ForkTree db.heap db.index db.root) {d : StateDelta}
    (bound : ∀ q, d.parent = some q → q < db.heap.size) (fresh : d.finalized = false) :
    db.Quiet op { db with heap := db.heap.push d, index := db.index ++ [db.heap.size] } where
  head_eq := rfl
  parents p mem q up := by
    rwa [db.heap.cell_push_of_lt d (tree.bound p mem)] at up
  blocks p mem done := by
    rcases List.mem_append.mp mem with mem | last
    · have same := db.heap.cell_push_of_lt d (tree.bound p mem)
      exact ⟨mem, same ▸ done, congrArg StateDelta.revision same, congrArg (fun d => d.blockHeader.signer) same⟩
    · rw [List.mem_singleton.mp last, db.heap.cell_push bound, if_pos rfl, fresh] at done
      contradiction
  forks _ _ entry := .inl entry

theorem createWritableNode (wf : db.WellFormed) (parentId newId : Multihash) (header : BlockHeader) :
    db.Quiet op (db.createWritableNode parentId newId header).2 := by
  rcases db.createWritableNode_cases parentId newId header with same | ⟨parent, found, -, -, made⟩
  · rw [same]
    exact .refl db op
  rw [made]
  refine push wf.tree (d := (db.heap.cell parent).makeChild parent newId header) ?_ rfl
  rintro q ⟨⟩
  exact wf.tree.bound parent (wf.getNode_iff.mp found).1

theorem cloneNode (wf : db.WellFormed) (nodeId newId : Multihash) (header : BlockHeader) :
    db.Quiet op (db.cloneNode nodeId newId header).2 := by
  rcases db.cloneNode_cases nodeId newId header with same | ⟨same, -⟩ | ⟨node, found, pending, -, made⟩
  · rw [same]
    exact .refl db op
  · rw [same]
    exact .refl db op
  rw [made]
  exact push wf.tree (d := (db.heap.cell node).clone newId header) (wf.clone_linked found newId header) pending

variable {nodeId : Multihash}

theorem transact {codec : KeyCodec} (wf : db.WellFormed) {calls : List NodeOp} {result : Except StateDbError Unit}
    (ran : db.transact codec nodeId calls = (result, db')) : db.Quiet op db' := by
  obtain ⟨heap, extended, rfl⟩ := transact_eq ran
  have frame {p : ℕ} (mem : p ∈ db.index) := extended.frame p (wf.tree.bound p mem)
  constructor
  case head_eq => rfl
  case parents => exact fun p mem q up => (frame mem).parent_eq.symm.trans up
  case blocks =>
    intro p mem done
    refine ⟨mem, (frame mem).finalized_eq.symm.trans done, (frame mem).revision_eq, ?_⟩
    rw [Heap.signer, (frame mem).header_eq, Heap.signer]
  case forks => exact fun _ _ entry => .inl entry

theorem discardNode (wf : db.WellFormed) {result : Except StateDbError Unit}
    (ran : db.discardNode nodeId = (result, db')) : db.Quiet (.discardNode nodeId) db' := by
  rcases wf.discardNode_cases ran with ⟨forkHeads, rfl, -, old⟩ |
    ⟨s, mem, rfl, -, -, forkHeads, cut, q, known, up, rfl | ⟨alone, rfl⟩⟩
  · exact ⟨rfl, fun _ _ _ up => up, fun _ mem done => ⟨mem, done, rfl, rfl⟩, fun id q entry => .inl (old id q entry)⟩
  · exact ⟨rfl, fun _ _ _ up => up, fun _ mem done => ⟨(mem_index_without.mp mem).1, done, rfl, rfl⟩,
      fun id q entry => .inl (WellFormed.fork_of_cut cut entry)⟩
  · refine ⟨rfl, fun _ _ _ up => up,
      fun _ mem done => ⟨(mem_index_without.mp mem).1, done, rfl, rfl⟩, fun id r entry => ?_⟩
    simp only [Database.without, ForkHeads.getElem?_insert] at entry
    split at entry
    · cases entry
      refine .inr ⟨s, mem, rfl, up, fun p found up' => ?_, fun p found => ?_⟩
      · by_contra other
        refine alone p found (fun below => ?_) up'
        exact (wf.parent_kept mem up).2 (db.heap.mem_path_link up' below (Ne.symm other))
      · exact alone p (mem_index_without.mp found).1 (mem_index_without.mp found).2
    · exact .inl (WellFormed.fork_of_cut cut entry)

theorem commitNode {crypto : Crypto} {accepted : Bool} (wf : db.WellFormed)
    (success : db.commitNode crypto nodeId accepted = (.ok (), db')) : db.Quiet op db' := by
  rcases wf.commitNode_cases success with
    rfl | ⟨n, mem, inner, below, b, new, h', -, committed, forkHeads, cut, rfl⟩
  · exact .refl _ op
  constructor
  case head_eq => rfl
  case parents =>
    intro p _ q up
    rcases eq_or_ne p n with rfl | other
    · exact absurd (committed.parent_self.symm.trans up) (Option.some_ne_none q).symm
    · exact (committed.parent_of_ne other).symm.trans up
  case blocks =>
    intro p found done
    obtain ⟨known, kept⟩ := mem_index_without.mp found
    refine ⟨known, (committed.cell_frame p).2.2.symm.trans done, (committed.cell_frame p).2.1, ?_⟩
    change (h'.cell p).blockHeader.signer = (db.heap.cell p).blockHeader.signer
    rcases eq_or_ne p n with rfl | other
    · rw [committed.cell_self, ← committed.header_eq]
      rfl
    · have outer : p ≠ db.heap.top n := by
        rw [wf.tree.top_eq mem]
        rintro rfl
        exact kept (h'.self_mem_path _)
      rw [committed.cell_other p other outer]
  case forks => exact fun id q entry => .inl (WellFormed.fork_of_cut cut entry)

end Quiet

/-- Every step that does not finalize a node is quiet. -/
theorem WellFormed.quiet_of_step {codec : KeyCodec} {crypto : Crypto} {algo : ForkResolution}
    {db db' : Database} (wf : db.WellFormed) {op : DbOp} (moves : Step codec crypto algo db op db')
    (other : ∀ id, op ≠ .finalizeNode id) : db.Quiet op db' := by
  obtain ⟨result, ran⟩ := moves.ends
  cases op with
  | createWritableNode parentId newId header =>
    cases ran
    exact .createWritableNode wf parentId newId header
  | cloneNode nodeId newId header =>
    obtain rfl : (db.cloneNode nodeId newId header).2 = db' := congrArg Prod.snd ran
    exact .cloneNode wf nodeId newId header
  | transact nodeId calls => exact .transact wf ran
  | finalizeNode nodeId => exact absurd rfl (other nodeId)
  | discardNode nodeId => exact .discardNode wf ran
  | commitNode nodeId accepted => exact .commitNode wf (moves.success (.inr ⟨nodeId, accepted, rfl⟩))

end Database

end Teleno.StateDb
