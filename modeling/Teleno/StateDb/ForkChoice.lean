import Teleno.StateDb.Removal

/-! # Fork choice and arrival order

A tree of blocks over one root is created and finalized in some order, parents before children.
After every prefix of the order the head is the best of the finalized nodes: the greatest revision,
and the earliest timestamp among those. Which block that is in the end depends on the tree only.
-/

namespace Teleno.StateDb

open Library Database List

/-- A block as it is handed to `create_writable_node`. -/
structure Block where
  id : Multihash
  parentId : Multihash
  header : BlockHeader
deriving DecidableEq

/-- A finite tree of blocks over a root. Heights count from the root. -/
structure BlockTree where
  rootId : Multihash
  blocks : List Block
  height : Multihash → ℕ
  nodup : (blocks.map Block.id).Nodup
  root_fresh : ∀ b ∈ blocks, b.id ≠ rootId
  height_root : height rootId = 0
  parents : ∀ b ∈ blocks, b.parentId = rootId ∨ ∃ p ∈ blocks, p.id = b.parentId
  height_block : ∀ b ∈ blocks, height b.id = height b.parentId + 1

/-- What happens to a block. -/
inductive Arrival where
  | create (b : Block)
  | finalize (b : Block)
deriving DecidableEq

def Arrival.op : Arrival → DbOp
  | .create b => .createWritableNode b.parentId b.id b.header
  | .finalize b => .finalizeNode b.id

variable {b : Block} {db : Database} {algo : ForkResolution}

namespace BlockTree

variable (tree : BlockTree)

/-- Blocks at one height have distinct timestamps. -/
def DistinctTimes : Prop := ∀ b ∈ tree.blocks, ∀ c ∈ tree.blocks, tree.height b.id = tree.height c.id →
  b.header.timestamp = c.header.timestamp → b = c

/-- Blocks at one height have distinct signers. -/
def DistinctSigners : Prop := ∀ b ∈ tree.blocks, ∀ c ∈ tree.blocks, tree.height b.id = tree.height c.id →
  b.header.signer = c.header.signer → b = c

instance : Decidable tree.DistinctTimes :=
  inferInstanceAs (Decidable (∀ b ∈ tree.blocks, ∀ c ∈ tree.blocks, _ → _ → _))

instance : Decidable tree.DistinctSigners :=
  inferInstanceAs (Decidable (∀ b ∈ tree.blocks, ∀ c ∈ tree.blocks, _ → _ → _))

/-- The id of the greatest height's earliest block, or of the root of an empty tree. -/
def IsBest (id : Multihash) : Prop :=
  tree.blocks = [] ∧ id = tree.rootId ∨ ∃ b ∈ tree.blocks, b.id = id ∧ ∀ c ∈ tree.blocks,
    tree.height c.id < tree.height b.id ∨
      tree.height c.id = tree.height b.id ∧ b.header.timestamp ≤ c.header.timestamp

/-- Blocks of the tree arriving one after the other, each created under a finalized parent and
finalized once. -/
inductive Arrives : List Arrival → Prop
  | start : Arrives []
  | create {done : List Arrival} {b : Block} (before : Arrives done) (member : b ∈ tree.blocks)
      (fresh : .create b ∉ done)
      (parent : b.parentId = tree.rootId ∨ ∃ p ∈ tree.blocks, p.id = b.parentId ∧ .finalize p ∈ done) :
      Arrives (done ++ [.create b])
  | finalize {done : List Arrival} {b : Block} (before : Arrives done) (created : .create b ∈ done)
      (fresh : .finalize b ∉ done) : Arrives (done ++ [.finalize b])

/-- An order in which all blocks are created and finalized. -/
structure Schedule where
  arrivals : List Arrival
  arrives : tree.Arrives arrivals
  complete : ∀ b ∈ tree.blocks, .finalize b ∈ arrivals

variable {tree}

theorem block_eq {c : Block} (left : b ∈ tree.blocks) (right : c ∈ tree.blocks) (same : b.id = c.id) : b = c :=
  inj_on_of_nodup_map tree.nodup left right same

/-- Distinct timestamps leave one best block. -/
theorem IsBest.unique (times : tree.DistinctTimes) {id id' : Multihash} (left : tree.IsBest id)
    (right : tree.IsBest id') : id = id' := by
  rcases left with ⟨empty, rfl⟩ | ⟨b, mem, rfl, best⟩ <;> rcases right with ⟨empty', rfl⟩ | ⟨c, mem', rfl, best'⟩
  · rfl
  · rw [empty] at mem'
    contradiction
  · rw [empty'] at mem
    contradiction
  · have first := best c mem'
    have second := best' b mem
    rw [times b mem c mem' (by omega) (by omega)]

theorem Arrives.mem_blocks {done : List Arrival} (arrives : tree.Arrives done)
    (created : .create b ∈ done) : b ∈ tree.blocks := by
  induction arrives with
  | start => contradiction
  | create _ mem _ _ ih =>
    rcases mem_append.mp created with earlier | last
    · exact ih earlier
    · obtain rfl := Arrival.create.inj (mem_singleton.mp last)
      exact mem
  | finalize _ _ _ ih =>
    rcases mem_append.mp created with earlier | last
    · exact ih earlier
    · cases mem_singleton.mp last

theorem Arrives.created_of_finalized {done : List Arrival} (arrives : tree.Arrives done)
    (finalized : .finalize b ∈ done) : .create b ∈ done := by
  induction arrives with
  | start => contradiction
  | create _ _ _ _ ih =>
    rcases mem_append.mp finalized with earlier | last
    · exact mem_append_left _ (ih earlier)
    · cases mem_singleton.mp last
  | finalize _ created _ ih =>
    refine mem_append_left _ ?_
    rcases mem_append.mp finalized with earlier | last
    · exact ih earlier
    · obtain rfl := Arrival.finalize.inj (mem_singleton.mp last)
      exact created

end BlockTree

namespace Database

variable {db' : Database} {codec : KeyCodec} {crypto : Crypto}

theorem run_append (db : Database) (ops ops' : List DbOp) : db.run codec crypto algo (ops ++ ops') =
    (db.run codec crypto algo ops).bind fun db => db.run codec crypto algo ops' := by
  induction ops generalizing db with
  | nil => rfl
  | cons op rest ih =>
    rw [cons_append, run, run]
    cases db.apply codec crypto algo op with
    | mk outcome next =>
      cases outcome with
      | error e => rfl
      | ok =>
        dsimp only
        split
        · rfl
        · exact ih next

/-- Every other finalized node is lower than the head, or level and later. -/
def HeadBest (db : Database) : Prop :=
  ∀ p ∈ db.index, (db.heap.cell p).finalized = true → p = db.head ∨
    db.heap.revision p < db.heap.revision db.head ∨
    db.heap.revision p = db.heap.revision db.head ∧ db.heap.timestamp db.head < db.heap.timestamp p

/-- A comparator that orders by time keeps the head the best node when nothing ties with the new one. -/
theorem HeadUpdate.headBest {node head : ℕ} {forkHeads : ForkHeads}
    (update : HeadUpdate algo (db.markFinalized node) node head forkHeads) (best : db.HeadBest)
    (compares : algo ≠ .fifo)
    (untied : db.heap.revision node = db.heap.revision db.head →
      db.heap.timestamp node ≠ db.heap.timestamp db.head ∧
        (algo = .pob → db.heap.signer node ≠ db.heap.signer db.head)) :
    { db.markFinalized node with head, forkHeads : Database }.HeadBest := by
  intro p mem done
  rw [finalized_markFinalized] at done
  simp only [revision_markFinalized, timestamp_markFinalized]
  cases update with
  | higher above =>
    simp only [revision_markFinalized, head_markFinalized] at above
    rcases done with rfl | done
    · exact .inl rfl
    rcases best p mem done with rfl | lower | ⟨level, -⟩
    · exact .inr (.inl above)
    · exact .inr (.inl (lower.trans above))
    · exact .inr (.inl (level.trans_lt above))
  | lower below =>
    simp only [revision_markFinalized, head_markFinalized] at below
    rcases done with rfl | done
    · exact .inr (.inl below)
    · exact best p mem done
  | stays level later signers =>
    simp only [revision_markFinalized, timestamp_markFinalized, head_markFinalized] at level later
    rcases done with rfl | done
    · exact .inr (.inr ⟨level, lt_of_le_of_ne (later compares) (untied level).1.symm⟩)
    · exact best p mem done
  | takes level earlier _ signers =>
    simp only [revision_markFinalized, timestamp_markFinalized, head_markFinalized] at level earlier
    rcases done with rfl | done
    · exact .inl rfl
    rcases best p mem done with rfl | lower | ⟨level', later⟩
    · exact .inr (.inr ⟨level.symm, earlier⟩)
    · exact .inr (.inl (level.symm ▸ lower))
    · exact .inr (.inr ⟨level'.trans level.symm, earlier.trans later⟩)
  | best level burns signers | fallback level burns signers =>
    simp only [revision_markFinalized, signer_markFinalized, head_markFinalized] at level signers
    exact absurd signers.symm ((untied level).2 burns)

end Database

/-- The database after some arrivals: it holds the created blocks, those that arrived finalized are,
and its head is the best of them. -/
structure BlockTree.Arrived (tree : BlockTree) (base : ℕ) (done : List Arrival) (db : Database) : Prop where
  wf : db.WellFormed
  root_id : db.heap.id db.root = tree.rootId
  nodes : ∀ p ∈ db.index, p ≠ db.root → ∃ b ∈ tree.blocks, db.heap.id p = b.id ∧
    (db.heap.cell p).blockHeader = b.header ∧ .create b ∈ done ∧
    ((db.heap.cell p).finalized = true ↔ .finalize b ∈ done)
  created : ∀ b ∈ tree.blocks, .create b ∈ done → ∃ p ∈ db.index, db.heap.id p = b.id
  revision : ∀ p ∈ db.index, db.heap.revision p = base + tree.height (db.heap.id p)
  best : db.HeadBest

namespace BlockTree.Arrived

variable {tree : BlockTree} {base : ℕ} {done : List Arrival}

/-- The node of a created block. -/
theorem node (arrived : tree.Arrived base done db) (mem : b ∈ tree.blocks)
    (created : .create b ∈ done) : ∃ p ∈ db.index, p ≠ db.root ∧ db.heap.id p = b.id ∧
      (db.heap.cell p).blockHeader = b.header ∧ ((db.heap.cell p).finalized = true ↔ .finalize b ∈ done) := by
  obtain ⟨p, known, named⟩ := arrived.created b mem created
  have inner : p ≠ db.root := by
    rintro rfl
    exact tree.root_fresh b mem (named.symm.trans arrived.root_id)
  obtain ⟨c, mem', named', header, -, done⟩ := arrived.nodes p known inner
  obtain rfl := block_eq mem' mem (named'.symm.trans named)
  exact ⟨p, known, inner, named, header, done⟩

/-- The node of a finalized block. -/
theorem finalized (arrived : tree.Arrived base done db) (arrives : tree.Arrives done) (mem : b ∈ tree.blocks)
    (finalized : .finalize b ∈ done) : ∃ p ∈ db.index, db.heap.id p = b.id ∧
      (db.heap.cell p).blockHeader = b.header ∧ (db.heap.cell p).finalized = true := by
  obtain ⟨p, known, -, named, header, iff⟩ := arrived.node mem (arrives.created_of_finalized finalized)
  exact ⟨p, known, named, header, iff.mpr finalized⟩

/-- A finalized node with the id of a block's parent. -/
theorem parent (arrived : tree.Arrived base done db) (arrives : tree.Arrives done)
    (parent : b.parentId = tree.rootId ∨ ∃ p ∈ tree.blocks, p.id = b.parentId ∧ .finalize p ∈ done) :
    ∃ q ∈ db.index, db.heap.id q = b.parentId ∧ (db.heap.cell q).finalized = true := by
  rcases parent with onRoot | ⟨c, mem, same, finalized⟩
  · exact ⟨db.root, arrived.wf.tree.root_mem, arrived.root_id.trans onRoot.symm, arrived.wf.tree.root_finalized⟩
  · obtain ⟨q, known, named, -, finalized⟩ := arrived.finalized arrives mem finalized
    exact ⟨q, known, named.trans same, finalized⟩

theorem openLockless (codec : KeyCodec) {backend : Backend} (synced : backend.Synced)
    (init : List (DatabaseKey × Bytes)) (root : backend.id = tree.rootId) :
    tree.Arrived backend.revision [] (.openLockless codec backend init) := by
  obtain ⟨d, frame, -, opened⟩ := openLockless_eq codec backend init
  have cell : (Heap.empty.push d).cell 0 = d := Heap.cell_empty_push frame.parent_eq
  have id : (Database.openLockless codec backend init).heap.id 0 = tree.rootId := by
    rw [opened, Heap.id, cell]
    exact frame.id_eq.trans root
  have revision : (Database.openLockless codec backend init).heap.revision 0 = backend.revision := by
    rw [opened, Heap.revision, cell]
    exact frame.revision_eq
  constructor
  case wf => exact .openLockless codec synced init
  case root_id => exact id
  case nodes => exact fun p mem inner => absurd (mem_singleton.mp mem) inner
  case created => exact fun b _ created => absurd created not_mem_nil
  case revision =>
    intro p mem
    rw [mem_singleton.mp mem, id, tree.height_root, revision, Nat.add_zero]
  case best => exact fun p mem _ => .inl (mem_singleton.mp mem)

/-- The id of a block that has not been created is not in use. -/
theorem unknown (arrived : tree.Arrived base done db) (mem : b ∈ tree.blocks)
    (fresh : .create b ∉ done) : ∀ p ∈ db.index, db.heap.id p ≠ b.id := by
  intro p found same
  rcases eq_or_ne p db.root with rfl | inner
  · exact tree.root_fresh b mem (same.symm.trans arrived.root_id)
  · obtain ⟨c, mem', named', -, created, -⟩ := arrived.nodes p found inner
    exact fresh (block_eq mem' mem (named'.symm.trans same) ▸ created)

theorem create (codec : KeyCodec) (crypto : Crypto) (algo : ForkResolution) (arrived : tree.Arrived base done db)
    (arrives : tree.Arrives done) (mem : b ∈ tree.blocks) (fresh : .create b ∉ done)
    (parent : b.parentId = tree.rootId ∨ ∃ p ∈ tree.blocks, p.id = b.parentId ∧ .finalize p ∈ done) :
    ∃ db', db.run codec crypto algo [Arrival.op (.create b)] = some db' ∧
      tree.Arrived base (done ++ [.create b]) db' := by
  obtain ⟨q, known, named, finalized⟩ := arrived.parent arrives parent
  have wf := arrived.wf
  let d := (db.heap.cell q).makeChild q b.id b.header
  have outcome : (db.createWritableNode b.parentId b.id b.header).2 =
      { db with heap := db.heap.push d, index := db.index ++ [db.heap.size] } :=
    createWritableNode_eq (wf.getNode_iff.mpr ⟨known, named⟩) finalized
      (WellFormed.getNode_eq_none_iff.mpr (arrived.unknown mem fresh)) b.header
  refine ⟨(db.createWritableNode b.parentId b.id b.header).2, rfl, ?_⟩
  have wf' := wf.createWritableNode b.parentId b.id b.header
  rw [outcome] at wf' ⊢
  have old {p : ℕ} (found : p ∈ db.index) : (db.heap.push d).cell p = db.heap.cell p :=
    db.heap.cell_push_of_lt d (wf.tree.bound p found)
  have new : (db.heap.push d).cell db.heap.size = d := by
    refine (db.heap.cell_push (fun j up => ?_) db.heap.size).trans (if_pos rfl)
    exact Option.some.inj up ▸ wf.tree.bound q known
  have split {p : ℕ} (found : p ∈ db.index ++ [db.heap.size]) : p ∈ db.index ∨ p = db.heap.size := by
    simpa only [mem_append, mem_singleton] using found
  constructor
  case wf => exact wf'
  case root_id =>
    rw [Heap.id, old wf.tree.root_mem]
    exact arrived.root_id
  case nodes =>
    intro p found inner
    rcases split found with found | rfl
    · obtain ⟨c, mem', named', header, created, iff⟩ := arrived.nodes p found inner
      refine ⟨c, mem', ?_, ?_, mem_append_left _ created, ?_⟩
      · rw [Heap.id, old found]
        exact named'
      · rw [old found]
        exact header
      · rw [old found, iff]
        simp
    · refine ⟨b, mem, congrArg StateDelta.id new, by rw [new]; rfl, by simp, ?_⟩
      rw [new]
      refine iff_of_false Bool.false_ne_true (fun finalized => ?_)
      have earlier : .finalize b ∈ done := by simpa using finalized
      exact fresh (arrives.created_of_finalized earlier)
  case created =>
    intro c mem' created
    rcases mem_append.mp created with created | last
    · obtain ⟨p, found, named'⟩ := arrived.created c mem' created
      refine ⟨p, mem_append_left _ found, ?_⟩
      rw [Heap.id, old found]
      exact named'
    · obtain rfl := Arrival.create.inj (mem_singleton.mp last)
      exact ⟨db.heap.size, by simp, congrArg StateDelta.id new⟩
  case revision =>
    intro p found
    simp only [Heap.revision, Heap.id]
    rcases split found with found | rfl
    · rw [old found]
      exact arrived.revision p found
    · have above := arrived.revision q known
      rw [named] at above
      rw [new]
      change db.heap.revision q + 1 = base + tree.height b.id
      rw [above, tree.height_block b mem, Nat.add_assoc]
  case best =>
    intro p found finalized
    simp only [Heap.revision, Heap.timestamp, old wf.head_mem] at finalized ⊢
    rcases split found with found | rfl
    · rw [old found] at finalized ⊢
      exact arrived.best p found finalized
    · rw [new] at finalized
      contradiction

/-- The node of a block is above a head that is still the root. -/
theorem head_inner (arrived : tree.Arrived base done db) (mem : b ∈ tree.blocks) {node : ℕ} (known : node ∈ db.index)
    (named : db.heap.id node = b.id) : db.head ≠ db.root ∨ db.heap.revision db.head < db.heap.revision node := by
  refine or_iff_not_imp_left.mpr (fun onRoot => ?_)
  have level := arrived.revision node known
  have bottom := arrived.revision db.root arrived.wf.tree.root_mem
  rw [named, tree.height_block b mem] at level
  rw [arrived.root_id, tree.height_root] at bottom
  rw [not_not.mp onRoot, bottom, level]
  omega

/-- A block that is not finalized yet differs from a level head in its time, and in its signer where
signers are compared. -/
theorem untied (arrived : tree.Arrived base done db) (times : tree.DistinctTimes)
    (signers : algo = .pob → tree.DistinctSigners) (mem : b ∈ tree.blocks) (fresh : .finalize b ∉ done) {node : ℕ}
    (known : node ∈ db.index) (named : db.heap.id node = b.id) (header : (db.heap.cell node).blockHeader = b.header)
    (same : db.heap.revision node = db.heap.revision db.head) :
    db.heap.timestamp node ≠ db.heap.timestamp db.head ∧
      (algo = .pob → db.heap.signer node ≠ db.heap.signer db.head) := by
  have wf := arrived.wf
  have inner := (arrived.head_inner mem known named).resolve_right (by omega)
  obtain ⟨c, mem', named', header', -, iff'⟩ := arrived.nodes db.head wf.head_mem inner
  have other : b ≠ c := by
    rintro rfl
    exact fresh (iff'.mp wf.head_finalized)
  have heights : tree.height b.id = tree.height c.id := by
    have level := arrived.revision node known
    have top := arrived.revision db.head wf.head_mem
    rw [named] at level
    rw [named'] at top
    omega
  simp only [Heap.timestamp, Heap.signer, header, header']
  exact ⟨fun tie => other (times b mem c mem' heights tie),
    fun burns tie => other (signers burns b mem c mem' heights tie)⟩

theorem finalize (codec : KeyCodec) (crypto : Crypto) (arrived : tree.Arrived base done db)
    (arrives : tree.Arrives done) (times : tree.DistinctTimes) (compares : algo ≠ .fifo)
    (signers : algo = .pob → tree.DistinctSigners) (created : .create b ∈ done) (fresh : .finalize b ∉ done) :
    ∃ db', db.run codec crypto algo [Arrival.op (.finalize b)] = some db' ∧
      tree.Arrived base (done ++ [.finalize b]) db' := by
  have wf := arrived.wf
  have mem := arrives.mem_blocks created
  obtain ⟨node, known, inner, named, header, iff⟩ := arrived.node mem created
  have open_ : (db.heap.cell node).finalized = false := by
    rw [← Bool.not_eq_true, iff]
    exact fresh
  have found := wf.getNode_iff.mpr ⟨known, named⟩
  obtain ⟨db', success⟩ : ∃ db', db.finalizeNode algo b.id = (.ok (), db') :=
    finalizeNode_ok found (fun same =>
      wf.parent_ne_none wf.head_mem ((arrived.head_inner mem known named).resolve_right (by omega)))
  have wf' := wf.finalizeNode success
  refine ⟨db', ?_, ?_⟩
  · simp only [Arrival.op, run, apply, success, finalizesAgain, found, Option.any_some, open_]
    rfl
  obtain ⟨node', found', head, forkHeads, update, rfl⟩ := finalizeNode_eq wf.forkIds success
  obtain rfl := Option.some.inj (found.symm.trans found')
  have chosen := update.headBest arrived.best compares (arrived.untied times signers mem fresh known named header)
  constructor
  case wf => exact wf'
  case root_id =>
    rw [updateForkHeads_heap, updateForkHeads_root, id_markFinalized]
    exact arrived.root_id
  case nodes =>
    intro p listed inner
    rw [updateForkHeads_index] at listed
    rw [updateForkHeads_root] at inner
    rw [updateForkHeads_heap, id_markFinalized, blockHeader_markFinalized, finalized_markFinalized]
    obtain ⟨c, mem', named', header', created', iff'⟩ := arrived.nodes p listed inner
    refine ⟨c, mem', named', header', mem_append_left _ created', ?_⟩
    rw [iff', mem_append, mem_singleton, Arrival.finalize.injEq, or_comm]
    refine or_congr_right ⟨?_, ?_⟩
    · rintro rfl
      exact block_eq mem' mem (named'.symm.trans named)
    · rintro rfl
      exact wf.tree.id_inj p listed node known (named'.trans named.symm)
  case created =>
    intro c mem' created'
    rw [updateForkHeads_heap, updateForkHeads_index]
    simp only [id_markFinalized]
    exact arrived.created c mem' (by simpa using created')
  case revision =>
    intro p found
    rw [updateForkHeads_index] at found
    rw [updateForkHeads_heap, revision_markFinalized, id_markFinalized]
    exact arrived.revision p found
  case best =>
    simp only [Database.HeadBest, updateForkHeads_index, updateForkHeads_heap, updateForkHeads_head]
    exact chosen

/-- Arrivals in any order succeed and leave the best finalized node as head. -/
theorem run (codec : KeyCodec) (crypto : Crypto) (opened : tree.Arrived base [] db) (times : tree.DistinctTimes)
    (compares : algo ≠ .fifo) (signers : algo = .pob → tree.DistinctSigners) (arrives : tree.Arrives done) :
    ∃ db', db.run codec crypto algo (done.map Arrival.op) = some db' ∧ tree.Arrived base done db' := by
  induction arrives with
  | start => exact ⟨db, rfl, opened⟩
  | create before mem fresh parent ih =>
    obtain ⟨db₁, ran, arrived⟩ := ih
    obtain ⟨db₂, ran', arrived'⟩ := arrived.create codec crypto algo before mem fresh parent
    refine ⟨db₂, ?_, arrived'⟩
    rw [map_append, run_append, ran]
    exact ran'
  | finalize before created fresh ih =>
    obtain ⟨db₁, ran, arrived⟩ := ih
    obtain ⟨db₂, ran', arrived'⟩ := arrived.finalize codec crypto before times compares signers created fresh
    refine ⟨db₂, ?_, arrived'⟩
    rw [map_append, run_append, ran]
    exact ran'

/-- With every block finalized the head is the best block of the tree. -/
theorem isBest (arrived : tree.Arrived base done db) (arrives : tree.Arrives done)
    (complete : ∀ b ∈ tree.blocks, .finalize b ∈ done) : tree.IsBest (db.heap.id db.head) := by
  have wf := arrived.wf
  have better {c : Block} (mem : c ∈ tree.blocks) : ∃ p ∈ db.index, db.heap.id p = c.id ∧
      (db.heap.cell p).blockHeader = c.header ∧ (p = db.head ∨
        db.heap.revision p < db.heap.revision db.head ∨
        db.heap.revision p = db.heap.revision db.head ∧ db.heap.timestamp db.head < db.heap.timestamp p) := by
    obtain ⟨p, known, named, header, finalized⟩ := arrived.finalized arrives mem (complete c mem)
    exact ⟨p, known, named, header, arrived.best p known finalized⟩
  have top := arrived.revision db.head wf.head_mem
  rcases eq_or_ne db.head db.root with onRoot | inner
  · refine .inl ⟨eq_nil_iff_forall_not_mem.mpr fun c mem => ?_, onRoot ▸ arrived.root_id⟩
    obtain ⟨p, known, named, -, lower⟩ := better mem
    have level := arrived.revision p known
    rw [onRoot, arrived.root_id, tree.height_root] at top
    rw [named, tree.height_block c mem] at level
    rw [onRoot] at lower
    rcases lower with rfl | lower | ⟨same, -⟩ <;> omega
  · obtain ⟨b, mem, named, header, -, -⟩ := arrived.nodes db.head wf.head_mem inner
    refine .inr ⟨b, mem, named.symm, fun c mem' => ?_⟩
    obtain ⟨p, known, named', header', lower⟩ := better mem'
    have level := arrived.revision p known
    rw [named] at top
    rw [named'] at level
    simp only [Heap.timestamp, header, header'] at lower
    rcases lower with rfl | lower | ⟨same, later⟩
    · obtain rfl := block_eq mem' mem (named'.symm.trans named)
      exact .inr ⟨rfl, le_rfl⟩
    · exact .inl (by omega)
    · exact .inr ⟨by omega, later.le⟩

end BlockTree.Arrived

/-- Two databases over one root that receive the same blocks in different orders end with the same
head: the block of greatest revision with the least timestamp. -/
theorem head_independent_of_order (codec : KeyCodec) (crypto : Crypto) (algo : ForkResolution)
    (compares : algo ≠ .fifo) (tree : BlockTree) (times : tree.DistinctTimes)
    (signers : algo = .pob → tree.DistinctSigners) (left right : Backend) (leftSynced : left.Synced)
    (rightSynced : right.Synced) (leftRoot : left.id = tree.rootId) (rightRoot : right.id = tree.rootId)
    (leftInit rightInit : List (DatabaseKey × Bytes)) (first second : tree.Schedule) :
    ∃ db₁ db₂, (openLockless codec left leftInit).run codec crypto algo
        (first.arrivals.map Arrival.op) = some db₁ ∧
      (openLockless codec right rightInit).run codec crypto algo
        (second.arrivals.map Arrival.op) = some db₂ ∧
      db₁.heap.id db₁.head = db₂.heap.id db₂.head ∧ tree.IsBest (db₁.heap.id db₁.head) ∧
      ∀ b ∈ tree.blocks, (∃ p ∈ db₁.index, db₁.heap.id p = b.id ∧ (db₁.heap.cell p).finalized = true) ∧
        ∃ p ∈ db₂.index, db₂.heap.id p = b.id ∧ (db₂.heap.cell p).finalized = true := by
  obtain ⟨db₁, ran₁, arrived₁⟩ := (BlockTree.Arrived.openLockless codec leftSynced leftInit leftRoot).run
    codec crypto times compares signers first.arrives
  obtain ⟨db₂, ran₂, arrived₂⟩ := (BlockTree.Arrived.openLockless codec rightSynced rightInit rightRoot).run
    codec crypto times compares signers second.arrives
  have best₁ := arrived₁.isBest first.arrives first.complete
  have best₂ := arrived₂.isBest second.arrives second.complete
  refine ⟨db₁, db₂, ran₁, ran₂, best₁.unique times best₂, best₁, fun b mem => ⟨?_, ?_⟩⟩
  · obtain ⟨p, known, named, -, finalized⟩ := arrived₁.finalized first.arrives mem (first.complete b mem)
    exact ⟨p, known, named, finalized⟩
  · obtain ⟨p, known, named, -, finalized⟩ := arrived₂.finalized second.arrives mem (second.complete b mem)
    exact ⟨p, known, named, finalized⟩

namespace SmallTree

def one : Block := ⟨[1], .zero, { timestamp := 10, signer := [7] }⟩

def two : Block := ⟨[2], .zero, { timestamp := 20, signer := [8] }⟩

def three : Block := ⟨[3], [2], { timestamp := 30, signer := [7] }⟩

/-- Two blocks on the root and one on the later of them. -/
def tree : BlockTree where
  rootId := .zero
  blocks := [one, two, three]
  height id := if id = [3] then 2 else if id = [1] ∨ id = [2] then 1 else 0
  nodup := by decide
  root_fresh := by decide
  height_root := by decide
  parents := by decide
  height_block := by decide

/-- Every block finalized before the next is created. -/
def inOrder : tree.Schedule where
  arrivals := [.create one, .finalize one, .create two, .finalize two, .create three, .finalize three]
  arrives :=
    have nothing : tree.Arrives [] := .start
    have first := nothing.create (b := one) (by decide) (by decide) (by decide)
    have second := (first.finalize (b := one) (by decide) (by decide)).create (b := two) (by decide)
      (by decide) (by decide)
    have third := (second.finalize (b := two) (by decide) (by decide)).create (b := three) (by decide)
      (by decide) (by decide)
    third.finalize (b := three) (by decide) (by decide)
  complete := by decide

/-- The first block arrives before but is finalized after the others. -/
def interleaved : tree.Schedule where
  arrivals := [.create two, .create one, .finalize two, .create three, .finalize three, .finalize one]
  arrives :=
    have nothing : tree.Arrives [] := .start
    have first := nothing.create (b := two) (by decide) (by decide) (by decide)
    have second := first.create (b := one) (by decide) (by decide) (by decide)
    have third := (second.finalize (b := two) (by decide) (by decide)).create (b := three) (by decide)
      (by decide) (by decide)
    (third.finalize (b := three) (by decide) (by decide)).finalize (b := one) (by decide) (by decide)
  complete := by decide

end SmallTree

theorem head_independent_of_order_of_smallTree :
    ∃ db₁ db₂, openEmpty.run .transparent .transparent .pob
        (SmallTree.inOrder.arrivals.map Arrival.op) = some db₁ ∧
      openEmpty.run .transparent .transparent .pob
        (SmallTree.interleaved.arrivals.map Arrival.op) = some db₂ ∧
      db₁.heap.id db₁.head = db₂.heap.id db₂.head ∧ SmallTree.tree.IsBest (db₁.heap.id db₁.head) := by
  obtain ⟨db₁, db₂, ran₁, ran₂, same, best, -⟩ := head_independent_of_order .transparent .transparent .pob
    (by decide) SmallTree.tree (by decide) (fun _ => by decide) {} {} (.of_none rfl) (.of_none rfl) rfl rfl [] []
    SmallTree.inOrder SmallTree.interleaved
  exact ⟨db₁, db₂, ran₁, ran₂, same, best⟩

end Teleno.StateDb
