import Teleno.Library.MapFold
import Teleno.Storage.ChainMigration

/-! # A failed migration can be repeated, a finished one undone

Until the legacy directory is renamed, a migration only changes column families, which it clears before it fills them,
and the handler puts the layout back. Afterwards the handler keeps the new layout. Three writes escape this: the one
between the mark of a running migration and the guarded region, after which the mark stays, and the two up to the record
of the backup path, without which nothing can be rolled back.
-/

namespace Teleno.Storage

open Library List Option Std.ExtTreeMap Bool Exec Disk

section Statements

/-- The legacy database is in use and at its path. -/
structure HoldsLegacy (basedir : String) (legacy : LegacyDb) (storage : NodeStorage) : Prop where
  layout : storage.value .chainStorage = "legacy"
  source : storage.directories (sourcePath basedir) = some (.database legacy)

/-- The node's database is in use and holds exactly the legacy records. -/
structure HoldsUnified (legacy : LegacyDb) (storage : NodeStorage) : Prop where
  layout : storage.value .chainStorage = "unified"
  chainState : storage.families .chainState = legacy.objects
  chainMetadata : storage.families .chainMetadata = legacy.metadata

/-- The same process goes on, or the database is opened again, at some time by some version. -/
def resume (basedir : String) (reopened : Option OpenCall) : Migrating Unit :=
  reopened.elim (pure ()) fun call => initializeStorageMetadata basedir { call with fails := fun _ => false }

/-- A rollback without errors puts the legacy database back. -/
def RollsBack (basedir : String) (legacy : LegacyDb) (storage : NodeStorage) : Prop :=
  ∀ reopened startedAt completedAt, ∃ result storage',
    (resume basedir reopened >>= fun _ =>
      rollbackUnifiedChainDbMigration basedir { startedAt, completedAt }) storage = .ok result storage' ∧
    HoldsLegacy basedir legacy storage'

/-- A migration without errors succeeds, at any time whose backup path is free, and can be rolled back. -/
def Migrates (sha : Bytes → String) (basedir : String) (legacy : LegacyDb) (storage : NodeStorage) : Prop :=
  ∀ reopened startedAt completedAt, storage.directories (backupPath basedir startedAt) = none →
    ∃ result storage', (resume basedir reopened >>= fun _ =>
      migrateLegacyChainDbToUnified sha basedir { startedAt, completedAt }) storage = .ok result storage' ∧
    HoldsUnified legacy storage' ∧ RollsBack basedir legacy storage'

/-- Nothing has happened to the legacy database and migration can be repeated, or all of it has been moved and can
be moved back. -/
def AllOrNothing (sha : Bytes → String) (basedir : String) (legacy : LegacyDb) (storage : NodeStorage) : Prop :=
  (HoldsLegacy basedir legacy storage ∧ Migrates sha basedir legacy storage) ∨
    (HoldsUnified legacy storage ∧ RollsBack basedir legacy storage)

end Statements

variable {message basedir : String} {s s' s'' : NodeStorage} {sha : Bytes → String} {legacy : LegacyDb}
  {call : MigrationCall}

section Steps

variable {fails : Bool} {action : NodeStorage → NodeStorage} {α : Type} {cut : NodeStorage → Prop}

theorem ends_perform {returned : Unit → NodeStorage → Prop} (done : fails = false → returned () (action s))
    (failed : fails = true → cut s) : Ends (perform fails message action) s returned cut := by
  cases fails with
  | false => exact done rfl
  | true => exact failed rfl

variable {returned : α → NodeStorage → Prop} {next : Unit → Migrating α}

theorem ends_perform_bind (rest : fails = false → Ends (next ()) (action s) returned cut)
    (failed : fails = true → cut s) : Ends (perform fails message action >>= next) s returned cut := by
  cases fails with
  | false => exact rest rfl
  | true => exact failed rfl

/-- An operation that only reads. -/
theorem ends_readMetadata_bind {key : MetadataKey} {next : String → Migrating α}
    (rest : fails = false → Ends (next (s.value key)) s returned cut) (failed : fails = true → cut s) :
    Ends (readMetadata fails key >>= next) s returned cut := by
  cases fails with
  | false => exact rest rfl
  | true => exact failed rfl

theorem ends_pathExists_bind {path : String} {next : Bool → Migrating α}
    (rest : fails = false → Ends (next (s.directories path).isSome) s returned cut)
    (failed : fails = true → cut s) : Ends (pathExists fails path >>= next) s returned cut := by
  cases fails with
  | false => exact rest rfl
  | true => exact failed rfl

theorem ends_hashColumnFamily_bind {sha : Bytes → String} {name : String} {records : ObjectMap}
    {next : MigratedColumnFamily → Migrating α}
    (rest : fails = false → Ends (next (summary sha name records)) s returned cut) (failed : fails = true → cut s) :
    Ends (hashColumnFamily fails sha name records >>= next) s returned cut := by
  cases fails with
  | false => exact rest rfl
  | true => exact failed rfl

/-- Equal column families pass the verification. -/
theorem ends_verifyCopy_bind {source target : MigratedColumnFamily} (same : source = target)
    (rest : fails = false → Ends (next ()) s returned cut) (failed : fails = true → cut s) :
    Ends (verifyCopy fails source target >>= next) s returned cut := by
  subst same
  cases fails with
  | true => exact failed rfl
  | false =>
    have passes : verifyCopy false source source s = .ok () s :=
      require_eq_ok_iff.mpr ⟨decide_eq_true ⟨rfl, rfl, rfl⟩, rfl⟩
    rw [Ends, bind_of_ok passes]
    exact rest rfl

theorem ends_openLegacyChainDb_bind {path : String} {legacy : LegacyDb}
    (there : s.directories path = some (.database legacy)) {next : LegacyDb → Migrating α}
    (rest : fails = false → Ends (next legacy) s returned cut) (failed : fails = true → cut s) :
    Ends (openLegacyChainDb fails path >>= next) s returned cut := by
  cases fails with
  | true => exact failed rfl
  | false =>
    have opens : openLegacyChainDb false path s = .ok legacy s := by
      change (((s.directories path).bind Entry.database?).elim (throw _) pure : Migrating LegacyDb) s = _
      rw [there]
      rfl
    rw [Ends, bind_of_ok opens]
    exact rest rfl

theorem ends_check_bind {holds : Bool} (rest : holds = true → Ends (next ()) s returned cut)
    (refused : holds = false → cut s) : Ends (require holds message >>= next) s returned cut := by
  cases holds with
  | true => exact rest rfl
  | false => exact refused rfl

/-- A check that passes. -/
theorem ends_require_bind {holds : Bool} (passes : holds = true) (rest : Ends (next ()) s returned cut) :
    Ends (require holds message >>= next) s returned cut := by
  subst passes
  exact rest

/-- The handler of the guarded region writes the layout. -/
theorem ends_guarded {layout : String} {body : Migrating α} {caught : NodeStorage → Prop}
    (runs : Ends body s returned caught)
    (handled : ∀ s', caught s' → fails = false ∧ cut (s'.setMetadata .chainStorage layout)) :
    Ends (guarded fails layout body) s returned cut := by
  refine Ends.tryCatch runs fun message s' was => ?_
  obtain ⟨rfl, written⟩ := handled s' was
  exact written

end Steps

section Copy

variable {fails : MigrationStep → Bool} {reads writes : ℕ → Bool} {full : List Write → Bool} {family : ColumnFamily}
  {part : Part} {records source : ObjectMap}

/-- Only column families differ. -/
structure SamePlaces (s s' : NodeStorage) : Prop where
  metadata : s'.metadata = s.metadata
  directories : s'.directories = s.directories

theorem SamePlaces.refl : SamePlaces s s := ⟨rfl, rfl⟩

theorem SamePlaces.trans (first : SamePlaces s s') (second : SamePlaces s' s'') : SamePlaces s s'' :=
  ⟨second.metadata.trans first.metadata, second.directories.trans first.directories⟩

theorem SamePlaces.setFamily : SamePlaces s (s.setFamily family records) := ⟨rfl, rfl⟩

@[simp] theorem setFamily_self : (s.setFamily family records).families family = records := Function.update_self ..

theorem setFamily_setFamily {records' : ObjectMap} :
    (s.setFamily family records).setFamily family records' = s.setFamily family records' := by
  simp [NodeStorage.setFamily]

theorem setFamily_same : s.setFamily family (s.families family) = s := by
  simp [NodeStorage.setFamily]

theorem applyBatch_append (batch batch' : List Write) :
    applyBatch (batch ++ batch') records = applyBatch batch' (applyBatch batch records) := foldl_append ..

/-- Deleting every key leaves nothing. -/
theorem applyBatch_deletes : applyBatch (records.toList.map fun record => .delete record.1) records = ∅ := by
  have erases : applyBatch (records.toList.map fun record => .delete record.1) records =
      records.keys.foldl (fun records key => records.erase key) records := by
    rw [applyBatch, ← map_fst_toList_eq_keys, foldl_map, foldl_map]
    rfl
  refine ext_getElem? fun key => ?_
  rw [erases, getElem?_foldl_erase, getElem?_empty]
  split_ifs with absent
  · rfl
  · rw [Std.ExtTreeMap.mem_keys] at absent
    exact getElem?_eq_none absent

/-- Putting every record of another column family into an empty one makes them equal. -/
theorem applyBatch_puts : applyBatch (source.toList.map fun record => .put record.1 record.2) ∅ = source := by
  refine ext_getElem? fun key => ?_
  rw [applyBatch, foldl_map]
  exact (getElem?_foldl_insert_toList ∅ source key).trans (by simp)

theorem ends_writeBatchChecked {writeFails : Bool} (batch : List Write) :
    Ends (writeBatchChecked writeFails family batch) s
      (fun _ s' => s' = s.setFamily family (applyBatch batch (s.families family)))
      (fun s' => s' = s ∧ writeFails = true) := by
  rw [writeBatchChecked]
  cases batch with
  | nil => exact setFamily_same.symm
  | cons write batch => exact ends_perform (fun _ => rfl) fun failed => ⟨rfl, failed⟩

/-- A loop that is not stopped by an error has sent everything, in however many batches. -/
theorem ends_writeRecords (position : ℕ) (batch rest : List Write) :
    Ends (writeRecords reads writes message full family position batch rest) s
      (fun _ s' => s' = s.setFamily family (applyBatch (batch ++ rest) (s.families family)))
      (fun s' => SamePlaces s s' ∧ ∃ i, reads i = true ∨ writes i = true) := by
  induction rest generalizing position batch s with
  | nil =>
    rw [writeRecords, append_nil]
    refine ends_perform_bind (fun _ => ?_) fun failed => ⟨.refl, position, .inl failed⟩
    refine (ends_writeBatchChecked batch).mono (fun _ _ done => done) ?_
    rintro s' ⟨rfl, failed⟩
    exact ⟨.refl, position, .inr failed⟩
  | cons write rest ih =>
    rw [writeRecords]
    refine ends_perform_bind (fun _ => ?_) fun failed => ⟨.refl, position, .inl failed⟩
    by_cases sends : full (batch ++ [write])
    · rw [if_pos sends]
      refine Ends.bind ((ends_writeBatchChecked _).mono (fun _ _ done => done) ?_) ?_
      · rintro s' ⟨rfl, failed⟩
        exact ⟨.refl, position, .inr failed⟩
      · rintro _ s' rfl
        refine (ih (position + 1) []).mono ?_ ?_
        · rintro _ s' rfl
          rw [setFamily_self, setFamily_setFamily, nil_append, ← applyBatch_append, append_assoc]
          rfl
        · rintro s' ⟨same, failed⟩
          exact ⟨SamePlaces.setFamily.trans same, failed⟩
    · rw [if_neg sends]
      refine (ih (position + 1) _).mono (fun _ s' done => ?_) fun _ => id
      rw [append_assoc] at done
      exact done

/-- The steps that can leave something behind that the handler does not repair, and the handler's own. -/
def MigrationStep.isReserved : MigrationStep → Bool
  | write .sourcePath => true
  | markUnified => true
  | write .backupPath => true
  | restoreLayout => true
  | _ => false

/-- Some other step has failed. -/
def Cut (fails : MigrationStep → Bool) : Prop := ∃ step, step.isReserved = false ∧ fails step = true

theorem ends_clearColumnFamily :
    Ends (clearColumnFamily fails part) s (fun _ s' => s' = s.setFamily part.target ∅)
      (fun s' => SamePlaces s s' ∧ Cut fails) := by
  rw [clearColumnFamily]
  refine Ends.get_bind ((ends_writeRecords _ _ _).mono ?_ ?_)
  · rintro _ s' rfl
    rw [nil_append, applyBatch_deletes]
  · rintro s' ⟨same, i, failed | failed⟩
    · exact ⟨same, _, rfl, failed⟩
    · exact ⟨same, _, rfl, failed⟩

/-- Whatever the target held, it holds the source afterwards. -/
theorem ends_copyColumnFamily :
    Ends (copyColumnFamily fails part source) s (fun _ s' => s' = s.setFamily part.target source)
      (fun s' => SamePlaces s s' ∧ Cut fails) := by
  rw [copyColumnFamily]
  refine ends_clearColumnFamily.bind ?_
  rintro _ _ rfl
  refine Ends.bind ((ends_writeRecords _ _ _).mono (fun _ _ done => done) ?_) ?_
  · rintro s' ⟨same, i, failed | failed⟩ <;>
      exact ⟨SamePlaces.setFamily.trans same, _, rfl, failed⟩
  · rintro _ _ rfl
    rw [nil_append, setFamily_self, setFamily_setFamily, applyBatch_puts]
    exact ends_perform (fun _ => rfl) fun failed => ⟨.setFamily, _, rfl, failed⟩

end Copy

section Migrate

/-- The column families and the directory are moved. -/
def moved (basedir : String) (legacy : LegacyDb) (backup : String) (s : NodeStorage) : NodeStorage :=
  ((s.setFamily .chainState legacy.objects).setFamily .chainMetadata legacy.metadata).rename (sourcePath basedir) backup

theorem ends_moveRecords {backup : String} (there : s.directories (sourcePath basedir) = some (.database legacy)) :
    Ends (moveRecords sha call.fails (sourcePath basedir) backup) s
      (fun result s' => s' = moved basedir legacy backup s ∧ result.backupPath = backup)
      (fun s' => SamePlaces s s' ∧ Cut call.fails) := by
  have reads (step : MigrationStep) (other : step.isReserved = false) (failed : call.fails step = true) :
      SamePlaces s s ∧ Cut call.fails := ⟨.refl, step, other, failed⟩
  rw [moveRecords]
  refine ends_openLegacyChainDb_bind there (fun _ => ?_) (reads _ rfl)
  refine ends_hashColumnFamily_bind (fun _ => ?_) (reads _ rfl)
  refine ends_hashColumnFamily_bind (fun _ => ?_) (reads _ rfl)
  refine ends_copyColumnFamily.bind ?_
  rintro _ _ rfl
  have further (s' : NodeStorage) (stopped : SamePlaces (s.setFamily Part.objects.target legacy.objects) s' ∧
      Cut call.fails) : SamePlaces s s' ∧ Cut call.fails := ⟨SamePlaces.setFamily.trans stopped.1, stopped.2⟩
  refine Ends.bind (ends_copyColumnFamily.mono (fun _ _ done => done) further) ?_
  rintro _ _ rfl
  have filled (step : MigrationStep) (other : step.isReserved = false) (failed : call.fails step = true) :
      SamePlaces s ((s.setFamily Part.objects.target legacy.objects).setFamily Part.metadata.target legacy.metadata) ∧
        Cut call.fails :=
    ⟨SamePlaces.setFamily.trans .setFamily, step, other, failed⟩
  refine Ends.get_bind ?_
  refine ends_hashColumnFamily_bind (fun _ => ?_) (filled _ rfl)
  refine ends_hashColumnFamily_bind (fun _ => ?_) (filled _ rfl)
  refine ends_verifyCopy_bind rfl (fun _ => ?_) (filled _ rfl)
  refine ends_verifyCopy_bind rfl (fun _ => ?_) (filled _ rfl)
  exact ends_perform_bind (fun _ => ⟨rfl, rfl⟩) (filled _ rfl)

/-- No step that is reserved has failed, except perhaps the handler's. -/
structure Spared (fails : MigrationStep → Bool) : Prop where
  sourcePath : fails (.write .sourcePath) = false
  markUnified : fails .markUnified = false
  backupPath : fails (.write .backupPath) = false

/-- At most one operation reports an error. -/
def OneError (fails : MigrationStep → Bool) : Prop :=
  ∀ step step', fails step = true → fails step' = true → step = step'

theorem OneError.spared {fails : MigrationStep → Bool} (one : OneError fails) (cut : Cut fails) :
    Spared fails ∧ fails .restoreLayout = false := by
  obtain ⟨step, other, failed⟩ := cut
  have others (step' : MigrationStep) (reserved : step'.isReserved = true) : fails step' = false := by
    rw [← not_eq_true]
    intro failed'
    rw [one step step' failed failed', reserved] at other
    contradiction
  exact ⟨⟨others _ rfl, others _ rfl, others _ rfl⟩, others _ rfl⟩

theorem OneError.handles {fails : MigrationStep → Bool} (one : OneError fails)
    (failed : fails .markUnified = true ∨ fails (.write .backupPath) = true) : fails .restoreLayout = false := by
  rw [← not_eq_true]
  intro failed'
  rcases failed with failed | failed <;> cases one _ _ failed failed'

/-- The records and the directory have been moved. -/
structure Moved (basedir : String) (legacy : LegacyDb) (call : MigrationCall) (s s' : NodeStorage) : Prop where
  unified : HoldsUnified legacy s'
  directories : s'.directories = s.directories.rename (sourcePath basedir) (backupPath basedir call.startedAt)

theorem Moved.of_moved {base : NodeStorage}
    (families : s'.families = (moved basedir legacy (backupPath basedir call.startedAt) base).families)
    (directories : s'.directories = s.directories.rename (sourcePath basedir) (backupPath basedir call.startedAt))
    (layout : s'.value .chainStorage = "unified") : Moved basedir legacy call s s' where
  directories := directories
  unified :=
    { layout := layout
      chainState := congrFun families _
      chainMetadata := congrFun families _ }

/-- What a migration leaves behind when at most one operation fails. -/
inductive Leaves (basedir : String) (legacy : LegacyDb) (call : MigrationCall) (s s' : NodeStorage) : Prop
  | legacy (holds : HoldsLegacy basedir legacy s') (spared : Spared call.fails)
  | taken (there : s.directories (backupPath basedir call.startedAt) ≠ none) (same : s' = s)
  | stuck (free : s.directories (backupPath basedir call.startedAt) = none)
      (failed : call.fails (.write .sourcePath) = true) (layout : s'.value .chainStorage = "migration-in-progress")
  | recorded (moved : Moved basedir legacy call s s') (spared : Spared call.fails)
      (path : s'.value .backupPath = backupPath basedir call.startedAt)
  | unrecorded (free : s.directories (backupPath basedir call.startedAt) = none)
      (moved : Moved basedir legacy call s s')
      (failed : call.fails .markUnified = true ∨ call.fails (.write .backupPath) = true)
      (path : s'.value .backupPath = s.value .backupPath)

/-- What the last part of a migration leaves, before the handler. -/
structure Recorded (fails : MigrationStep → Bool) (backup : String) (s s' : NodeStorage) : Prop where
  families : s'.families = s.families
  directories : s'.directories = s.directories
  path : (Cut fails ∧ s'.value .backupPath = backup) ∨
    ((fails .markUnified = true ∨ fails (.write .backupPath) = true) ∧ s'.value .backupPath = s.value .backupPath)

theorem ends_recordMigration {result : ChainMigrationResult} :
    Ends (recordMigration call result) s
      (fun _ s' => s'.families = s.families ∧ s'.directories = s.directories ∧ s'.value .chainStorage = "unified" ∧
        s'.value .backupPath = result.backupPath ∧ call.fails .markUnified = false ∧
        call.fails (.write .backupPath) = false)
      (Recorded call.fails result.backupPath s) := by
  have late (s' : NodeStorage) (families : s'.families = s.families) (directories : s'.directories = s.directories)
      (path : s'.value .backupPath = result.backupPath) (step : MigrationStep) (other : step.isReserved = false)
      (failed : call.fails step = true) : Recorded call.fails result.backupPath s s' :=
    ⟨families, directories, .inl ⟨⟨step, other, failed⟩, path⟩⟩
  rw [recordMigration]
  refine ends_perform_bind (fun marked => ?_) fun failed => ⟨rfl, rfl, .inr ⟨.inl failed, rfl⟩⟩
  refine ends_perform_bind (fun stored => ?_) fun failed => ⟨rfl, rfl, .inr ⟨.inr failed, rfl⟩⟩
  refine ends_perform_bind (fun _ => ?_) fun failed => late _ rfl rfl rfl _ rfl failed
  refine ends_perform_bind (fun _ => ?_) fun failed => late _ rfl rfl rfl _ rfl failed
  refine ends_perform_bind (fun _ => ?_) fun failed => late _ rfl rfl rfl _ rfl failed
  refine ends_perform_bind (fun _ => ?_) fun failed => late _ rfl rfl rfl _ rfl failed
  exact ends_perform (fun _ => ⟨rfl, rfl, rfl, rfl, marked, stored⟩) fun failed => late _ rfl rfl rfl _ rfl failed

/-- A migration from the legacy layout. If its backup path is taken it changes nothing. -/
theorem ends_migrate (sha : Bytes → String) (one : OneError call.fails) (start : HoldsLegacy basedir legacy s) :
    Ends (migrateLegacyChainDbToUnified sha basedir call) s
      (fun _ s' => Moved basedir legacy call s s' ∧ Spared call.fails ∧
        s'.value .backupPath = backupPath basedir call.startedAt)
      (fun s' => Leaves basedir legacy call s s' ∧
        (s.directories (backupPath basedir call.startedAt) = none → ∃ step, call.fails step = true)) := by
  have early (step : MigrationStep) (other : step.isReserved = false) (failed : call.fails step = true) :
      Leaves basedir legacy call s s ∧
        (s.directories (backupPath basedir call.startedAt) = none → ∃ step, call.fails step = true) :=
    ⟨.legacy start (one.spared ⟨step, other, failed⟩).1, fun _ => ⟨step, failed⟩⟩
  rw [migrateLegacyChainDbToUnified]
  refine ends_readMetadata_bind (fun _ => ?_) (early _ rfl)
  refine ends_require_bind (by rw [start.layout]; decide) ?_
  refine ends_readMetadata_bind (fun _ => ?_) (early _ rfl)
  refine ends_require_bind (by rw [start.layout]; decide) ?_
  refine ends_pathExists_bind (fun _ => ?_) (early _ rfl)
  refine ends_require_bind (by rw [start.source]; rfl) ?_
  refine ends_pathExists_bind (fun _ => ?_) (early _ rfl)
  refine ends_check_bind (fun free => ?_) fun refused => ?_
  swap
  · have taken : s.directories (backupPath basedir call.startedAt) ≠ none := by
      intro free
      rw [free] at refused
      contradiction
    exact ⟨.taken taken rfl, fun free => absurd free taken⟩
  rw [not_eq_true', isSome_eq_false_iff, isNone_iff_eq_none] at free
  refine ends_perform_bind (fun _ => ?_) (early _ rfl)
  refine ends_perform_bind (fun named => ?_) fun failed => ⟨.stuck free failed rfl, fun _ => ⟨_, failed⟩⟩
  refine Ends.bind (ends_guarded (ends_moveRecords start.source) ?_) ?_
  · rintro s' ⟨same, cut⟩
    obtain ⟨spared, handles⟩ := one.spared cut
    refine ⟨handles, .legacy ⟨rfl, ?_⟩ spared, fun _ => cut.imp fun _ => And.right⟩
    exact (congrFun same.directories _).trans start.source
  · rintro result _ ⟨rfl, backup⟩
    refine Ends.bind (ends_guarded ends_recordMigration ?_) ?_
    · rintro s' ⟨families, directories, ⟨cut, path⟩ | ⟨failed, path⟩⟩
      · obtain ⟨spared, handles⟩ := one.spared cut
        exact ⟨handles, .recorded (Moved.of_moved families directories rfl) spared (path.trans backup),
          fun _ => cut.imp fun _ => And.right⟩
      · exact ⟨one.handles failed, .unrecorded free (Moved.of_moved families directories rfl) failed path,
          fun _ => failed.elim (fun failed => ⟨_, failed⟩) fun failed => ⟨_, failed⟩⟩
    · rintro _ s' ⟨families, directories, layout, path, marked, stored⟩
      exact ⟨Moved.of_moved families directories layout, ⟨named, marked, stored⟩, path.trans backup⟩

end Migrate

section Paths

theorem length_joinPath (directory name : String) :
    (joinPath directory name).length = (joinPath directory "").length + name.length := by
  rw [joinPath, joinPath]
  split <;> simp

theorem length_backupPath (basedir timestamp : String) :
    (sourcePath basedir).length < (backupPath basedir timestamp).length := by
  have shorter : "blockchain".length = 10 := rfl
  have longer : "blockchain.legacy-pre-unified-".length = 30 := rfl
  rw [backupPath, sourcePath, length_joinPath, length_joinPath _ (_ ++ _), String.length_append]
  omega

theorem backupPath_ne_sourcePath (basedir timestamp : String) : backupPath basedir timestamp ≠ sourcePath basedir :=
  fun same => (length_backupPath basedir timestamp).ne (congrArg String.length same.symm)

theorem backupPath_ne_empty (basedir timestamp : String) : backupPath basedir timestamp ≠ "" :=
  fun same => Nat.not_lt_zero _ (same ▸ length_backupPath basedir timestamp)

end Paths

section Later

/-- What migration and rollback look at is the same. -/
structure SameChain (s s' : NodeStorage) : Prop where
  layout : s'.value .chainStorage = s.value .chainStorage
  backupPath : s'.value .backupPath = s.value .backupPath
  families : s'.families = s.families
  directories : s'.directories = s.directories

theorem SameChain.refl : SameChain s s := ⟨rfl, rfl, rfl, rfl⟩

theorem SameChain.trans (first : SameChain s s') (second : SameChain s' s'') : SameChain s s'' :=
  ⟨second.layout.trans first.layout, second.backupPath.trans first.backupPath,
    second.families.trans first.families, second.directories.trans first.directories⟩

theorem SameChain.setMetadata {key : MetadataKey} {value : String} (notLayout : key ≠ .chainStorage)
    (notBackup : key ≠ .backupPath) : SameChain s (s.setMetadata key value) where
  layout := congrArg (getD · "") (put_other notLayout.symm)
  backupPath := congrArg (getD · "") (put_other notBackup.symm)
  families := rfl
  directories := rfl

theorem ends_writeIfEmpty {key : MetadataKey} {value : String} (notLayout : key ≠ .chainStorage)
    (notBackup : key ≠ .backupPath) :
    Ends (writeIfEmpty (fun _ => false) key value) s (fun _ => SameChain s) fun _ => False := by
  rw [writeIfEmpty]
  refine ends_readMetadata_bind (fun _ => ?_) fun failed => false_ne_true failed
  split
  · exact ends_perform (fun _ => .setMetadata notLayout notBackup) fun failed => false_ne_true failed
  · exact SameChain.refl

/-- The layout says where the chain data is. -/
def Settled (basedir : String) (s : NodeStorage) : Prop :=
  (∃ legacy, HoldsLegacy basedir legacy s) ∨ s.value .chainStorage = "unified"

theorem Settled.untouched (settled : Settled basedir s) :
    settleLayout (fun _ => false) (s.value .chainStorage) (hasLegacyChainDb false basedir s) = pure () := by
  rcases settled with ⟨legacy, layout, source⟩ | layout
  · simp [settleLayout, layout, hasLegacyChainDb, source, Entry.database?]
  · simp [settleLayout, layout]

/-- Opening the database again changes nothing that counts. -/
theorem ends_initializeStorageMetadata {now createdBy : String} (settled : Settled basedir s) :
    Ends (initializeStorageMetadata basedir { now, createdBy }) s (fun _ => SameChain s) fun _ => False := by
  have keeps {key : MetadataKey} {value : String} {base : NodeStorage} (same : SameChain s base)
      (notLayout : key ≠ .chainStorage) (notBackup : key ≠ .backupPath) :
      Ends (writeIfEmpty (fun _ => false) key value) base (fun _ => SameChain s) fun _ => False :=
    (ends_writeIfEmpty notLayout notBackup).mono (fun _ _ kept => same.trans kept) fun _ => id
  have known : s.value .chainStorage = "legacy" ∨ s.value .chainStorage = "unified" :=
    settled.imp (fun holds => holds.elim fun _ holds => holds.layout) id
  rw [initializeStorageMetadata]
  refine ends_readMetadata_bind (fun _ => ?_) fun failed => false_ne_true failed
  refine Ends.get_bind ?_
  refine ends_require_bind (by rcases known with layout | layout <;> rw [layout] <;> decide) ?_
  refine ends_require_bind (by rcases known with layout | layout <;> rw [layout] <;> decide) ?_
  refine (keeps .refl (by decide) (by decide)).bind fun _ s₁ same => ?_
  rw [settled.untouched, pure_bind]
  refine (keeps same (by decide) (by decide)).bind fun _ s₂ same => ?_
  refine (keeps same (by decide) (by decide)).bind fun _ s₃ same => ?_
  refine ends_perform_bind (fun _ => ?_) fun failed => false_ne_true failed
  refine ends_perform (fun _ => ?_) fun failed => false_ne_true failed
  exact (same.trans (.setMetadata (by decide) (by decide))).trans (.setMetadata (by decide) (by decide))

theorem exists_resume (reopened : Option OpenCall) (settled : Settled basedir s) :
    ∃ s', resume basedir reopened s = .ok () s' ∧ SameChain s s' := by
  cases reopened with
  | none => exact ⟨s, rfl, .refl⟩
  | some call =>
    obtain ⟨_, s', ok, same⟩ := (ends_initializeStorageMetadata settled).exists_ok
    exact ⟨s', ok, same⟩

/-- What a rollback needs: a recorded path, something at that path, and nothing at the old one. -/
def CanRollBack (basedir : String) (s : NodeStorage) : Prop :=
  s.value .backupPath ≠ "" ∧ (s.directories (s.value .backupPath)).isSome ∧ s.directories (sourcePath basedir) = none

variable {startedAt completedAt : String}

section

variable (unified : s.value .chainStorage = "unified")

include unified

theorem ends_rollback : Ends (rollbackUnifiedChainDbMigration basedir { startedAt, completedAt }) s
      (fun _ s' => CanRollBack basedir s ∧ s'.value .chainStorage = "legacy" ∧
        s'.directories = s.directories.rename (s.value .backupPath) (sourcePath basedir))
      (fun _ => ¬ CanRollBack basedir s) := by
  have calm {P : Prop} (failed : false = true) : P := absurd failed false_ne_true
  rw [rollbackUnifiedChainDbMigration]
  refine ends_readMetadata_bind (fun _ => ?_) calm
  refine ends_require_bind (by rw [unified]; decide) ?_
  refine ends_readMetadata_bind (fun _ => ?_) calm
  refine ends_check_bind (fun named => ?_) fun refused can => ?_
  · refine ends_pathExists_bind (fun _ => ?_) calm
    refine ends_check_bind (fun there => ?_) fun refused can => ?_
    · refine ends_pathExists_bind (fun _ => ?_) calm
      refine ends_check_bind (fun free => ?_) fun refused can => ?_
      · refine ends_perform_bind (fun _ => ?_) calm
        refine ends_perform_bind (fun _ => ?_) calm
        rw [not_eq_true', isSome_eq_false_iff, isNone_iff_eq_none] at free
        exact ⟨⟨of_decide_eq_true named, there, free⟩, rfl, rfl⟩
      · rw [can.2.2] at refused
        contradiction
    · exact false_ne_true (refused.symm.trans can.2.1)
  · exact of_decide_eq_false refused can.1

/-- When a rollback without errors puts the legacy database back. -/
theorem rollback_iff :
    (∃ result s', rollbackUnifiedChainDbMigration basedir { startedAt, completedAt } s = .ok result s' ∧
      HoldsLegacy basedir legacy s') ↔
    CanRollBack basedir s ∧ s.directories (s.value .backupPath) = some (.database legacy) := by
  have differ (can : CanRollBack basedir s) : sourcePath basedir ≠ s.value .backupPath := by
    intro same
    obtain ⟨-, there, free⟩ := can
    rw [← same, free] at there
    contradiction
  constructor
  · rintro ⟨result, s', ok, holds⟩
    obtain ⟨can, -, directories⟩ := (ends_rollback unified).of_ok ok
    refine ⟨can, ?_⟩
    rw [← holds.source, directories, rename_destination (differ can)]
  · rintro ⟨can, there⟩
    obtain ⟨result, s', ok, -, layout, directories⟩ :=
      ((ends_rollback unified).mono (fun _ _ done => done) fun _ cannot => cannot can).exists_ok
    refine ⟨result, s', ok, layout, ?_⟩
    rw [directories, rename_destination (differ can), there]

theorem rollsBack_iff : RollsBack basedir legacy s ↔
      CanRollBack basedir s ∧ s.directories (s.value .backupPath) = some (.database legacy) := by
  constructor
  · intro rollsBack
    exact (rollback_iff unified).mp (rollsBack none "" "")
  · rintro ⟨can, there⟩ reopened startedAt completedAt
    obtain ⟨s', resumes, same⟩ := exists_resume reopened (Or.inr unified : Settled basedir s)
    rw [bind_of_ok resumes]
    refine (rollback_iff (same.layout.trans unified)).mpr ?_
    rw [CanRollBack, same.backupPath, same.directories]
    exact ⟨can, there⟩

end

theorem Moved.backup_eq (moved : Moved basedir legacy call s s') (start : HoldsLegacy basedir legacy s) :
    s'.directories (backupPath basedir call.startedAt) = some (.database legacy) := by
  rw [moved.directories, rename_destination (backupPath_ne_sourcePath _ _), start.source]

/-- A finished migration can be rolled back. -/
theorem Moved.rollsBack (moved : Moved basedir legacy call s s') (start : HoldsLegacy basedir legacy s)
    (path : s'.value .backupPath = backupPath basedir call.startedAt) : RollsBack basedir legacy s' := by
  have there := moved.backup_eq start
  refine (rollsBack_iff moved.unified.layout).mpr ?_
  rw [CanRollBack, path]
  refine ⟨⟨backupPath_ne_empty _ _, by rw [there]; rfl, ?_⟩, there⟩
  rw [moved.directories, rename_source]

/-- From the legacy layout, whatever the column families hold, a migration without errors succeeds. -/
theorem HoldsLegacy.migrates (start : HoldsLegacy basedir legacy s) : Migrates sha basedir legacy s := by
  intro reopened startedAt completedAt free
  obtain ⟨s₁, resumes, same⟩ := exists_resume reopened (Or.inl ⟨legacy, start⟩ : Settled basedir s)
  have start' : HoldsLegacy basedir legacy s₁ :=
    ⟨same.layout.trans start.layout, (congrFun same.directories _).trans start.source⟩
  let call : MigrationCall := { startedAt, completedAt }
  have one : OneError call.fails := fun _ _ failed => absurd failed false_ne_true
  obtain ⟨result, s', ok, moved, -, path⟩ := ((ends_migrate sha one start').mono (fun _ _ done => done) fun _ stopped =>
    (stopped.2 ((congrFun same.directories _).trans free)).elim fun _ failed => false_ne_true failed).exists_ok
  refine ⟨result, s', (bind_of_ok resumes).trans ok, moved.unified, moved.rollsBack start' path⟩

theorem Moved.allOrNothing_iff (moved : Moved basedir legacy call s s') :
    AllOrNothing sha basedir legacy s' ↔ RollsBack basedir legacy s' := by
  constructor
  · rintro (⟨holds, -⟩ | ⟨-, rollsBack⟩)
    · exact absurd (holds.layout.symm.trans moved.unified.layout) (by decide)
    · exact rollsBack
  · intro rollsBack
    exact .inr ⟨moved.unified, rollsBack⟩

theorem not_allOrNothing_of_inProgress (layout : s.value .chainStorage = "migration-in-progress") :
    ¬ AllOrNothing sha basedir legacy s := by
  rintro (⟨holds, -⟩ | ⟨unified, -⟩)
  · exact absurd (layout.symm.trans holds.layout) (by decide)
  · exact absurd (layout.symm.trans unified.layout) (by decide)

theorem leaves_final_migrate (sha : Bytes → String) (one : OneError call.fails)
    (start : HoldsLegacy basedir legacy s) :
    Leaves basedir legacy call s (final (migrateLegacyChainDbToUnified sha basedir call s)) := by
  refine ((ends_migrate sha one start).mono ?_ fun _ => And.left).final
  rintro _ s' ⟨moved, spared, path⟩
  exact .recorded moved spared path

/-- The rollback path that is already recorded serves the moved directory as well. -/
def Recoverable (basedir : String) (legacy : LegacyDb) (backup : String) (s : NodeStorage) : Prop :=
  s.value .backupPath ≠ "" ∧ s.value .backupPath ≠ sourcePath basedir ∧
    (s.value .backupPath = backup ∨ s.directories (s.value .backupPath) = some (.database legacy))

/-- Without a new record, rollback depends on the old one. -/
theorem Moved.rollsBack_iff_recoverable (moved : Moved basedir legacy call s s') (start : HoldsLegacy basedir legacy s)
    (path : s'.value .backupPath = s.value .backupPath) :
    RollsBack basedir legacy s' ↔ Recoverable basedir legacy (backupPath basedir call.startedAt) s := by
  have free : s'.directories (sourcePath basedir) = none := by rw [moved.directories, rename_source]
  rw [rollsBack_iff moved.unified.layout, CanRollBack, path, Recoverable]
  constructor
  · rintro ⟨⟨named, -, -⟩, found⟩
    have notSource : s.value .backupPath ≠ sourcePath basedir := by
      intro same
      rw [same, free] at found
      contradiction
    refine ⟨named, notSource, ?_⟩
    by_cases isBackup : s.value .backupPath = backupPath basedir call.startedAt
    · exact .inl isBackup
    · rw [moved.directories, rename_other notSource isBackup] at found
      exact .inr found
  · rintro ⟨named, notSource, served⟩
    have found : s'.directories (s.value .backupPath) = some (.database legacy) := by
      by_cases isBackup : s.value .backupPath = backupPath basedir call.startedAt
      · rw [isBackup]
        exact moved.backup_eq start
      · rw [moved.directories, rename_other notSource isBackup]
        exact served.resolve_left isBackup
    exact ⟨⟨named, by rw [found]; rfl, free⟩, found⟩

/-- A call in which one operation fails, or none. -/
def failingCall (startedAt completedAt : String) (failing : Option MigrationStep) : MigrationCall where
  startedAt := startedAt
  completedAt := completedAt
  fails step := decide (failing = some step)

/-- The failing operation is one that migration recovers from: not the write between the mark of a running migration
and the guarded region, and not one of the two that rollback depends on unless an older record serves. A call whose
backup path is taken stops before it writes. -/
def Survivable (basedir : String) (legacy : LegacyDb) (backup : String) (failing : Option MigrationStep)
    (s : NodeStorage) : Prop :=
  s.directories backup = none → failing ≠ some (.write .sourcePath) ∧
    (failing = some .markUnified ∨ failing = some (.write .backupPath) → Recoverable basedir legacy backup s)

theorem oneError_failingCall (startedAt completedAt : String) (failing : Option MigrationStep) :
    OneError (failingCall startedAt completedAt failing).fails := by
  intro step step' failed failed'
  exact some.inj ((of_decide_eq_true failed).symm.trans (of_decide_eq_true failed'))

theorem Spared.survivable {backup : String} {failing : Option MigrationStep}
    (spared : Spared (failingCall startedAt completedAt failing).fails) :
    Survivable basedir legacy backup failing s := by
  refine fun _ => ⟨of_decide_eq_false spared.sourcePath, fun failed => ?_⟩
  rcases failed with failed | failed
  · exact absurd failed (of_decide_eq_false spared.markUnified)
  · exact absurd failed (of_decide_eq_false spared.backupPath)

theorem Leaves.allOrNothing_iff {failing : Option MigrationStep} (start : HoldsLegacy basedir legacy s)
    (leaves : Leaves basedir legacy (failingCall startedAt completedAt failing) s s') :
    AllOrNothing sha basedir legacy s' ↔ Survivable basedir legacy (backupPath basedir startedAt) failing s := by
  rcases leaves with
    ⟨holds, spared⟩ | ⟨taken, rfl⟩ | ⟨free, failed, layout⟩ | ⟨moved, spared, path⟩ | ⟨free, moved, failed, path⟩
  · exact iff_of_true (.inl ⟨holds, holds.migrates⟩) spared.survivable
  · exact iff_of_true (.inl ⟨start, start.migrates⟩) fun free => absurd free taken
  · refine iff_of_false ?_ fun survives => (survives free).1 (of_decide_eq_true failed)
    exact not_allOrNothing_of_inProgress layout
  · exact iff_of_true (.inr ⟨moved.unified, moved.rollsBack start path⟩) spared.survivable
  · have named : failing = some .markUnified ∨ failing = some (.write .backupPath) :=
      failed.imp of_decide_eq_true of_decide_eq_true
    have recovers := moved.rollsBack_iff_recoverable start path
    rw [moved.allOrNothing_iff]
    constructor
    · refine fun rollsBack _ => ⟨?_, fun _ => recovers.mp rollsBack⟩
      rintro rfl
      rcases named with other | other <;> cases other
    · intro survives
      exact recovers.mpr ((survives free).2 named)

/-- Migration is all or nothing, and reversible, exactly when the operation that fails is a survivable one. -/
theorem migrate_allOrNothing_iff (startedAt completedAt : String) (failing : Option MigrationStep)
    (start : HoldsLegacy basedir legacy s) :
    AllOrNothing sha basedir legacy (Exec.final (migrateLegacyChainDbToUnified sha basedir
      (failingCall startedAt completedAt failing) s)) ↔
    Survivable basedir legacy (backupPath basedir startedAt) failing s :=
  (leaves_final_migrate sha (oneError_failingCall startedAt completedAt failing) start).allOrNothing_iff start

end Later

section Sample

/-- A legacy database with one object and one entry of metadata. -/
def sampleLegacy : LegacyDb where
  objects := (∅ : ObjectMap).insert [1] [2]
  metadata := (∅ : ObjectMap).insert [3] [4]

/-- A node before its first migration, with a leftover in the column family that will be filled. -/
def sampleStorage : NodeStorage where
  metadata := Disk.put .chainStorage "legacy" fun _ => none
  families := Function.update (fun _ => ∅) .chainState ((∅ : ObjectMap).insert [9] [9])
  directories := Disk.put (sourcePath "/data") (.database sampleLegacy) fun _ => none

/-- What a migration of the node leaves when one operation fails. -/
def sampleRun (failing : Option MigrationStep) : NodeStorage :=
  Exec.final (migrateLegacyChainDbToUnified (fun _ => "") "/data"
    (failingCall "20260101T000000Z" "20260101T000001Z" failing) sampleStorage)

theorem sampleStorage_holdsLegacy : HoldsLegacy "/data" sampleLegacy sampleStorage where
  layout := rfl
  source := by simp [sampleStorage]

theorem allOrNothing_sampleRun_iff (failing : Option MigrationStep) :
    AllOrNothing (fun _ => "") "/data" sampleLegacy (sampleRun failing) ↔
      Survivable "/data" sampleLegacy (backupPath "/data" "20260101T000000Z") failing sampleStorage :=
  (leaves_final_migrate _ (oneError_failingCall _ _ _) sampleStorage_holdsLegacy).allOrNothing_iff
    sampleStorage_holdsLegacy

/-- An error in a batch is survived. -/
theorem migrate_allOrNothing_iff_of_failedBatch :
    AllOrNothing (fun _ => "") "/data" sampleLegacy (sampleRun (some (.copyBatch .objects 1))) :=
  (migrate_allOrNothing_iff _ _ _ sampleStorage_holdsLegacy).mpr fun _ => ⟨nofun, nofun⟩

/-- An error between the mark and the guarded region leaves the mark, and an error at the record of the backup path
leaves a migration that cannot be rolled back. -/
theorem migrate_leaves_mark_or_no_record :
    ¬ AllOrNothing (fun _ => "") "/data" sampleLegacy (sampleRun (some (.write .sourcePath))) ∧
    ¬ AllOrNothing (fun _ => "") "/data" sampleLegacy (sampleRun (some (.write .backupPath))) := by
  have free : sampleStorage.directories (backupPath "/data" "20260101T000000Z") = none := by
    simp only [sampleStorage]
    rw [put_other (backupPath_ne_sourcePath _ _)]
  rw [allOrNothing_sampleRun_iff, allOrNothing_sampleRun_iff]
  exact ⟨fun survives => (survives free).1 rfl, fun survives => ((survives free).2 (.inr rfl)).1 rfl⟩

end Sample

end Teleno.Storage
