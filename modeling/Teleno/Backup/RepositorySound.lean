import Mathlib.Data.List.Perm.Subperm
import Teleno.Backup.Repository

/-! # The local repository stays sound

Every completed snapshot names only objects that are there with their named hashes, whatever fails and wherever the
process stops. `latest.json` names a completed snapshot as long as retention does not prune the snapshot that was
just stored and no deletion of the latest snapshot is cut short.
-/

namespace Teleno.Backup

open Library List Std.ExtTreeMap

variable {sha : Sha256} {repo repo' : LocalSnapshotRepository} {name hash : String} {dir : SnapshotDir}

namespace LocalSnapshotRepository

section Statements

variable (sha : Sha256) (repository : LocalSnapshotRepository)

/-- A directory with a `COMPLETE` marker under a name that is not partial. -/
structure Completed (name : String) (dir : SnapshotDir) : Prop where
  whole : isPartial name = false
  present : repository.snapshots[name]? = some dir
  marked : dir.complete = true

/-- The object of a hash is there. -/
structure HoldsObject (hash : String) : Prop where
  length : hash.length = 64
  present : hash ∈ repository.objects

/-- The objects are what their names say, and every completed snapshot has its objects. -/
structure Intact : Prop where
  stored : ∀ hash content, hash.length = 64 → repository.objects[hash]? = some content → sha.file content = hash
  held : ∀ name dir, repository.Completed name dir → ∀ entry ∈ dir.entries, repository.HoldsObject entry.sha256

/-- `latest.json` names a completed snapshot. -/
def Named : Prop :=
  ∀ backupId, repository.latest = some backupId → ∃ dir, repository.Completed backupId dir

/-- What every state keeps. -/
structure Maintained : Prop extends Intact sha repository where
  named : repository.Named

/-- Every completed snapshot names only objects that are there and have the named hash, and `latest.json` names a
completed snapshot. -/
structure Sound : Prop where
  objects : ∀ name dir, repository.Completed name dir → ∀ entry ∈ dir.entries,
    ∃ content, repository.objects[entry.sha256]? = some content ∧ sha.file content = entry.sha256
  latest : repository.Named

end Statements

/-- A directory lost some of its files, or all of it, and nothing else changed. -/
structure Reduced (name : String) (repository repository' : LocalSnapshotRepository) : Prop where
  objects : repository'.objects = repository.objects
  latest : repository'.latest = repository.latest
  others : ∀ other, other ≠ name → repository'.snapshots[other]? = repository.snapshots[other]?
  rest : ∀ dir', repository'.snapshots[name]? = some dir' →
    ∃ dir, repository.snapshots[name]? = some dir ∧ (dir'.complete → dir.complete) ∧ dir'.entries ⊆ dir.entries

section Changes

variable {other : String} {content : Bytes}

theorem setSnapshot_self : (repo.setSnapshot name dir).snapshots[name]? = some dir := by
  simp [setSnapshot]

theorem setSnapshot_other (differ : other ≠ name) :
    (repo.setSnapshot name dir).snapshots[other]? = repo.snapshots[other]? := by
  simp [setSnapshot, Std.ExtTreeMap.getElem?_insert, differ.symm]

theorem changeSnapshot_self {f : SnapshotDir → SnapshotDir} :
    (repo.changeSnapshot name f).snapshots[name]? = repo.snapshots[name]?.map f := by
  simp [changeSnapshot]

theorem changeSnapshot_other {f : SnapshotDir → SnapshotDir} (differ : other ≠ name) :
    (repo.changeSnapshot name f).snapshots[other]? = repo.snapshots[other]? := by
  simp [changeSnapshot, getElem?_alter, differ.symm]

theorem eraseSnapshot_self : (repo.eraseSnapshot name).snapshots[name]? = none := by
  simp [eraseSnapshot]

theorem eraseSnapshot_other (differ : other ≠ name) :
    (repo.eraseSnapshot name).snapshots[other]? = repo.snapshots[other]? := by
  simp [eraseSnapshot, getElem?_erase, differ.symm]

theorem renameSnapshot_destination {source destination : String} (differ : destination ≠ source) :
    (repo.renameSnapshot source destination).snapshots[destination]? = repo.snapshots[source]? := by
  simp [renameSnapshot, getElem?_erase, differ.symm]

theorem renameSnapshot_other {source destination : String} (notSource : name ≠ source)
    (notDestination : name ≠ destination) :
    (repo.renameSnapshot source destination).snapshots[name]? = repo.snapshots[name]? := by
  simp [renameSnapshot, getElem?_erase, getElem?_alter, notSource.symm,
    notDestination.symm]

theorem Completed.congr (completed : repo.Completed name dir)
    (same : repo'.snapshots[name]? = repo.snapshots[name]?) : repo'.Completed name dir :=
  ⟨completed.whole, same.trans completed.present, completed.marked⟩

theorem Completed.present_ne (completed : repo.Completed name dir) : repo.snapshots[name]? ≠ none := by
  simp [completed.present]

/-- `latest.json` is the same, and so is the snapshot that it names. -/
theorem Named.congr (named : repo.Named) (latest : repo'.latest = repo.latest)
    (same : ∀ name dir, repo.latest = some name → repo.Completed name dir →
      repo'.snapshots[name]? = repo.snapshots[name]?) : repo'.Named := by
  intro backupId isLatest
  rw [latest] at isLatest
  obtain ⟨dir, completed⟩ := named backupId isLatest
  exact ⟨dir, completed.congr (same backupId dir isLatest completed)⟩

/-- A directory without the `COMPLETE` marker is still without it. -/
theorem reduced_eraseSnapshot : Reduced name repo (repo.eraseSnapshot name) where
  objects := rfl
  latest := rfl
  others _ differ := eraseSnapshot_other differ
  rest dir' present := by
    rw [eraseSnapshot_self] at present
    contradiction

theorem reduced_without (gone : List MetadataFile) : Reduced name repo (repo.changeSnapshot name (.without gone)) where
  objects := rfl
  latest := rfl
  others _ differ := changeSnapshot_other differ
  rest dir' present := by
    rw [changeSnapshot_self, Option.map_eq_some_iff] at present
    obtain ⟨dir, present, rfl⟩ := present
    refine ⟨dir, present, ?_, ?_⟩
    · intro complete
      simp only [SnapshotDir.without] at complete
      split_ifs at complete
      exact complete
    · simp only [SnapshotDir.entries, SnapshotDir.without]
      split_ifs
      · simp
      · exact Subset.refl _

theorem Reduced.completed (reduced : Reduced name repo repo') {dir' : SnapshotDir}
    (completed : repo'.Completed other dir') : ∃ dir, repo.Completed other dir ∧ dir'.entries ⊆ dir.entries := by
  by_cases same : other = name
  · subst same
    obtain ⟨dir, present, marked, fewer⟩ := reduced.rest dir' completed.present
    exact ⟨dir, ⟨completed.whole, present, marked completed.marked⟩, fewer⟩
  · exact ⟨dir', completed.congr (reduced.others other same).symm, Subset.refl _⟩

/-- No snapshot is completed that was not, and none names more objects. -/
theorem Intact.of_fewer (intact : Intact sha repo) (objects : repo'.objects = repo.objects)
    (fewer : ∀ name dir', repo'.Completed name dir' →
      ∃ dir, repo.Completed name dir ∧ dir'.entries ⊆ dir.entries) : Intact sha repo' where
  stored hash content length present := by
    rw [objects] at present
    exact intact.stored hash content length present
  held name dir' completed entry mem := by
    obtain ⟨dir, completed, subset⟩ := fewer name dir' completed
    obtain ⟨length, present⟩ := intact.held name dir completed entry (subset mem)
    exact ⟨length, by rwa [objects]⟩

theorem Intact.reduced (intact : Intact sha repo) (reduced : Reduced name repo repo') : Intact sha repo' :=
  intact.of_fewer reduced.objects fun _ _ completed => reduced.completed completed

section

variable (kept : Maintained sha repo)

include kept

theorem Maintained.reduced (reduced : Reduced name repo repo')
    (unnamed : repo.latest ≠ some name) : Maintained sha repo' where
  toIntact := kept.toIntact.reduced reduced
  named := by
    refine kept.named.congr reduced.latest fun other _ latest _ => reduced.others other ?_
    rintro rfl
    exact unnamed latest

/-- Only the directory of a partial name changed. -/
theorem Maintained.of_partial (isPartial_name : isPartial name = true) (objects : repo'.objects = repo.objects)
    (latest : repo'.latest = repo.latest)
    (others : ∀ other, other ≠ name → repo'.snapshots[other]? = repo.snapshots[other]?) : Maintained sha repo' := by
  have same (other : String) (whole : isPartial other = false) :
      repo'.snapshots[other]? = repo.snapshots[other]? := by
    apply others
    rintro rfl
    rw [isPartial_name] at whole
    contradiction
  refine ⟨kept.toIntact.of_fewer objects fun name dir completed =>
    ⟨dir, completed.congr (same name completed.whole).symm, Subset.refl _⟩, ?_⟩
  exact kept.named.congr latest fun name _ _ completed => same name completed.whole

/-- Objects are added or replaced, and those with the length of a hash have that hash. -/
theorem Maintained.of_objects (snapshots : repo'.snapshots = repo.snapshots) (latest : repo'.latest = repo.latest)
    (stored : ∀ hash content, hash.length = 64 → repo'.objects[hash]? = some content → sha.file content = hash)
    (present : ∀ name dir, repo.Completed name dir →
      ∀ entry ∈ dir.entries, repo'.HoldsObject entry.sha256) : Maintained sha repo' where
  stored := stored
  held name dir completed := present name dir (completed.congr (by rw [snapshots]))
  named := kept.named.congr latest fun _ _ _ _ => by rw [snapshots]

end

theorem HoldsObject.putObject (holds : repo.HoldsObject hash) : (repo.putObject name content).HoldsObject hash :=
  ⟨holds.length, by simp [LocalSnapshotRepository.putObject, holds.present]⟩

theorem HoldsObject.removeObject (holds : repo.HoldsObject hash) (differ : hash ≠ name) :
    (repo.removeObject name).HoldsObject hash :=
  ⟨holds.length, by simp [LocalSnapshotRepository.removeObject, holds.present, differ.symm]⟩

/-- A file that is not an object, or an object with its own hash. -/
theorem Maintained.putObject (kept : Maintained sha repo) (true_name : name.length = 64 → sha.file content = name) :
    Maintained sha (repo.putObject name content) := by
  refine kept.of_objects rfl rfl ?_ ?_
  · intro hash content' length present
    by_cases same : hash = name
    · subst same
      simp only [LocalSnapshotRepository.putObject, getElem?_insert_self, Option.some.injEq] at present
      subst present
      exact true_name length
    · simp only [LocalSnapshotRepository.putObject, Std.ExtTreeMap.getElem?_insert, Std.LawfulEqCmp.compare_eq_iff_eq,
        if_neg (Ne.symm same)] at present
      exact kept.stored hash content' length present
  · intro name dir completed entry mem
    exact (kept.held name dir completed entry mem).putObject

/-- A file that no completed snapshot names. -/
theorem Intact.removeObject (intact : Intact sha repo)
    (unnamed : ∀ other dir, repo.Completed other dir → ∀ entry ∈ dir.entries, entry.sha256 ≠ name) :
    Intact sha (repo.removeObject name) where
  stored hash content length present := by
    simp only [LocalSnapshotRepository.removeObject, getElem?_erase] at present
    split_ifs at present
    exact intact.stored hash content length present
  held other dir completed entry mem :=
    (intact.held other dir (completed.congr rfl) entry mem).removeObject
      (unnamed other dir (completed.congr rfl) entry mem)

theorem Maintained.removeObject (kept : Maintained sha repo)
    (unnamed : ∀ other dir, repo.Completed other dir → ∀ entry ∈ dir.entries, entry.sha256 ≠ name) :
    Maintained sha (repo.removeObject name) where
  toIntact := kept.toIntact.removeObject unnamed
  named := kept.named.congr rfl fun _ _ _ _ => rfl

/-- A file that is not an object. -/
theorem Maintained.removeTemporary (kept : Maintained sha repo) (length : name.length ≠ 64) :
    Maintained sha (repo.removeObject name) := by
  apply kept.removeObject
  rintro other dir completed entry mem rfl
  exact length (kept.held other dir completed entry mem).length

theorem Intact.setLatest {latest : Option String} (intact : Intact sha repo)
    (named : ∀ backupId, latest = some backupId → ∃ dir, repo.Completed backupId dir) :
    Maintained sha (repo.setLatest latest) where
  stored := intact.stored
  held name dir completed entry mem := by
    have held := intact.held name dir (completed.congr rfl) entry mem
    exact ⟨held.length, held.present⟩
  named backupId isLatest := by
    obtain ⟨dir, completed⟩ := named backupId isLatest
    exact ⟨dir, completed.congr rfl⟩

theorem Maintained.sound (kept : Maintained sha repo) : repo.Sound sha where
  objects name dir completed entry mem := by
    obtain ⟨length, present⟩ := kept.held name dir completed entry mem
    obtain ⟨content, found⟩ := Option.isSome_iff_exists.mp (mem_iff_isSome_getElem?.mp present)
    exact ⟨content, found, kept.stored entry.sha256 content length found⟩
  latest := kept.named

theorem kept_empty : Maintained sha {} where
  stored hash content _ present := by simp at present
  held name dir completed := by simpa using completed.present
  named backupId latest := by simp at latest

end Changes

end LocalSnapshotRepository

section Names

theorem isPartial_partialName (backupId : String) : isPartial (partialName backupId) = true := by
  have length : (partialName backupId).length = backupId.length + 8 := by
    rw [partialName, String.length_append]
    rfl
  have ending : (partialName backupId).toList.drop backupId.length = ".partial".toList := by
    rw [partialName, String.toList_append, ← String.length_toList, drop_left]
  rw [isPartial, length, Nat.add_sub_cancel, ending]
  simp

/-- The last character of a backup's name is a digit. -/
theorem isPartial_makeBackupId (timestamp : String) (epochMilliseconds fileCount : ℕ) :
    isPartial (makeBackupId timestamp epochMilliseconds fileCount) = false := by
  rw [Bool.eq_false_iff]
  intro partialId
  simp only [isPartial, Bool.and_eq_true, beq_iff_eq] at partialId
  obtain ⟨-, ending⟩ := partialId
  have digits : (toString fileCount).toList = Nat.toDigits 10 fileCount := by
    rw [Nat.toString_eq_ofList_toDigits, String.toList_ofList]
  have last : (makeBackupId timestamp epochMilliseconds fileCount).toList.getLast? = some 'l' := by
    obtain ⟨front, split⟩ : ".partial".toList <:+ (makeBackupId timestamp epochMilliseconds fileCount).toList :=
      ending ▸ drop_suffix _ _
    rw [← split, getLast?_append]
    rfl
  have digit : 'l' ∈ Nat.toDigits 10 fileCount := by
    obtain ⟨final, isLast⟩ : ∃ final, (Nat.toDigits 10 fileCount).getLast? = some final :=
      Option.isSome_iff_exists.mp (getLast?_isSome.mpr Nat.toDigits_ne_nil)
    rw [makeBackupId, String.toList_append, digits, getLast?_append, isLast, Option.some_or] at last
    exact mem_of_getLast? (isLast.trans last)
  exact absurd (Nat.isDigit_of_mem_toDigits (by decide) (by decide) digit) (by decide)

theorem length_temporaryName {hash : String} (length : hash.length = 64) : (temporaryName hash).length ≠ 64 := by
  have grown : (temporaryName hash).length = hash.length + 4 := by
    rw [temporaryName, String.length_append]
    rfl
  omega

end Names

open LocalSnapshotRepository

variable {faults : RepositoryFaults} {backupId : String}

section Listing

theorem mem_completedSnapshotDirs : name ∈ completedSnapshotDirs repo ↔ ∃ dir, repo.Completed name dir := by
  simp only [completedSnapshotDirs, mem_map, mem_filter, Bool.and_eq_true, Bool.not_eq_true', Prod.exists,
    mem_toList_iff_getElem?_eq_some, exists_and_right, exists_eq_right]
  constructor
  · rintro ⟨dir, present, whole, marked⟩
    exact ⟨dir, whole, present, marked⟩
  · rintro ⟨dir, whole, present, marked⟩
    exact ⟨dir, present, whole, marked⟩

theorem completedSnapshotDirs_sorted : (completedSnapshotDirs repo).Pairwise (· < ·) := by
  rw [completedSnapshotDirs, pairwise_map]
  apply Pairwise.filter
  exact ordered_keys_toList.imp fun less => compare_lt_iff_lt.mp less

/-- The newest of some names is one of them, and not the excluded one. -/
theorem newest_mem {names listed : List String} {newest : String} (subset : names ⊆ listed)
    (valid : newest ≠ "" → newest ≠ backupId ∧ newest ∈ listed)
    (found : names.foldl (newerBackupId backupId) newest ≠ "") :
    names.foldl (newerBackupId backupId) newest ≠ backupId ∧
      names.foldl (newerBackupId backupId) newest ∈ listed := by
  induction names generalizing newest with
  | nil => exact valid found
  | cons name names ih =>
    obtain ⟨mem, rest⟩ := cons_subset.mp subset
    rw [foldl_cons] at found ⊢
    refine ih rest ?_ found
    rw [newerBackupId]
    split_ifs with excluded newer
    · exact valid
    · exact fun _ => ⟨excluded, mem⟩
    · exact valid

/-- Retention spares a name with few enough newer ones. -/
theorem not_mem_oldest {names : List String} {retentionCount : ℕ} (sorted : names.Pairwise (· < ·))
    (newer : (names.filter (name < ·)).length < retentionCount) (more : retentionCount ≤ names.length) :
    name ∉ names.take (names.length - retentionCount) := by
  intro mem
  have above : (names.drop (names.length - retentionCount)).Sublist (names.filter (name < ·)) := by
    have cut := sorted
    rw [← take_append_drop (names.length - retentionCount) names, pairwise_append] at cut
    have kept : (names.drop (names.length - retentionCount)).filter (name < ·) =
        names.drop (names.length - retentionCount) := by
      rw [filter_eq_self]
      intro later isLater
      exact decide_eq_true (cut.2.2 name mem later isLater)
    rw [← kept]
    exact (drop_sublist _ _).filter _
  have counted := above.length_le
  rw [length_drop] at counted
  omega

end Listing

section Programs

/-- The program leaves a maintained repository, whether it returns or is cut. -/
abbrev Keeps (sha : Sha256) {α : Type} (program : Storing α)
    (repository : LocalSnapshotRepository) : Prop := Ends program repository (fun _ => Maintained sha) (Maintained sha)

theorem ends_removeAll : Ends (removeAll faults name) repo
    (fun removed repo' => Reduced name repo repo' ∧
      (removed = true → repo'.snapshots[name]? = none))
    (Reduced name repo) := by
  rw [removeAll]
  cases faults.removals name with
  | done => exact ⟨reduced_eraseSnapshot, fun _ => eraseSnapshot_self⟩
  | fails gone => exact ⟨reduced_without gone, fun contrary => absurd contrary (by decide)⟩
  | stops gone => exact reduced_without gone

/-- The hashes that were read, and all those of one more snapshot. -/
theorem ends_collectSnapshotObjectHashes {referenced : Std.ExtTreeSet String} :
    Ends (collectSnapshotObjectHashes faults referenced name) repo
      (fun referenced' repo' => repo' = repo ∧ (∀ hash ∈ referenced, hash ∈ referenced') ∧
        ∀ dir, repo.snapshots[name]? = some dir → ∀ entry ∈ dir.entries, entry.sha256 ∈ referenced')
      (· = repo) := by
  refine ends_step_bind ?_ rfl
  apply Ends.get_bind
  cases present : (id repo).snapshots[name]? with
  | none => exact ⟨rfl, fun _ mem => mem, fun dir contrary => absurd (present.symm.trans contrary) (by simp)⟩
  | some dir =>
    refine ⟨rfl, fun hash mem => Std.ExtTreeSet.mem_insertMany_list.mpr (.inl mem), ?_⟩
    intro dir' same entry mem
    obtain rfl : dir = dir' := Option.some.inj (present.symm.trans same)
    apply Std.ExtTreeSet.mem_insertMany_list.mpr
    exact .inr (contains_iff_mem.mpr (mem_map_of_mem mem))

/-- The hashes of all the snapshots that were read. -/
theorem ends_collectAll (names : List String) :
    Ends (names.foldlM (collectSnapshotObjectHashes faults) ∅) repo
      (fun referenced repo' => repo' = repo ∧ ∀ name ∈ names, ∀ dir,
        repo.snapshots[name]? = some dir → ∀ entry ∈ dir.entries, entry.sha256 ∈ referenced)
      (· = repo) := by
  refine (Ends.foldlM (fun rest referenced repo' => repo' = repo ∧ ∀ name ∈ names, name ∈ rest ∨
    ∀ dir, repo.snapshots[name]? = some dir → ∀ entry ∈ dir.entries, entry.sha256 ∈ referenced) ?_
    ⟨rfl, fun name mem => .inl mem⟩).mono ?_ fun _ same => same
  · rintro name rest referenced repo' ⟨rfl, covered⟩
    refine ends_collectSnapshotObjectHashes.mono ?_ fun _ same => same
    rintro referenced' repo' ⟨rfl, more, hashes⟩
    refine ⟨rfl, ?_⟩
    intro other mem
    rcases covered other mem with left | known
    · rcases mem_cons.mp left with rfl | left
      · exact .inr hashes
      · exact .inl left
    · exact .inr fun dir present entry isEntry => more _ (known dir present entry isEntry)
  · rintro referenced repo' ⟨rfl, covered⟩
    refine ⟨rfl, fun name mem => ?_⟩
    simpa using covered name mem

/-- Retention does not reach the snapshot of this name. -/
def Spared (repository : LocalSnapshotRepository) (retentionCount : ℕ) (backupId : String) : Prop :=
  retentionCount = 0 ∨ ((completedSnapshotDirs repository).filter (backupId < ·)).length < retentionCount

/-- The removal of old snapshots leaves the one that `latest.json` names. -/
theorem ends_removeOldest {names : List String} (kept : Maintained sha repo) (latest : repo.latest = some backupId)
    (spared : backupId ∉ names) : Keeps sha (names.forM fun name => discard (removeAll faults name)) repo := by
  refine (Ends.forM (fun rest repo' => Maintained sha repo' ∧ repo'.latest = some backupId ∧
    backupId ∉ rest) ?_ ⟨kept, latest, spared⟩).mono (fun _ _ after => after.1) fun _ kept => kept
  rintro name rest repo' ⟨kept, latest, spared⟩
  obtain ⟨differ, left⟩ := ne_and_not_mem_of_not_mem_cons spared
  have unnamed : repo'.latest ≠ some name := by
    rw [latest]
    exact fun same => differ (Option.some.inj same)
  apply Ends.discard
  refine ends_removeAll.mono ?_ fun after reduced => kept.reduced reduced unnamed
  rintro removed after ⟨reduced, -⟩
  exact ⟨kept.reduced reduced unnamed, reduced.latest.trans latest, left⟩

/-- What the completed snapshots name is among these hashes. -/
def Referenced (referenced : Std.ExtTreeSet String) (repository : LocalSnapshotRepository) : Prop :=
  ∀ name dir, repository.Completed name dir → ∀ entry ∈ dir.entries, entry.sha256 ∈ referenced

theorem ends_removeUnreferenced {names : List String} {referenced : Std.ExtTreeSet String}
    (kept : Maintained sha repo) (covers : Referenced referenced repo) :
    Keeps sha (names.forM fun hash => if hash.length = 64 ∧ hash ∉ referenced then
        discard (tryStep (faults.steps (.removeObject hash)) (·.removeObject hash)) else pure ()) repo := by
  refine (Ends.forM (fun _ repo' => Maintained sha repo' ∧ Referenced referenced repo') ?_
    ⟨kept, covers⟩).mono (fun _ _ after => after.1) fun _ kept => kept
  rintro hash rest repo' ⟨kept, covers⟩
  split_ifs with unreferenced
  · have removed : Maintained sha (repo'.removeObject hash) := by
      apply kept.removeObject
      rintro name dir completed entry mem rfl
      exact unreferenced.2 (covers name dir completed entry mem)
    have covered : Referenced referenced (repo'.removeObject hash) :=
      fun name dir completed => covers name dir (completed.congr rfl)
    apply Ends.discard
    exact ends_tryStep ⟨removed, covered⟩ ⟨kept, covers⟩ kept
  · exact ⟨kept, covers⟩

theorem ends_pruneLocalSnapshotRepository {retentionCount : ℕ} (kept : Maintained sha repo)
    (latest : repo.latest = some backupId) (spared : Spared repo retentionCount backupId) :
    Keeps sha (pruneLocalSnapshotRepository faults retentionCount) repo := by
  rw [pruneLocalSnapshotRepository]
  split_ifs with unlimited
  · exact kept
  apply Ends.get_bind
  dsimp only
  split_ifs with few
  · exact kept
  have newer := spared.resolve_left unlimited
  refine (ends_removeOldest kept latest (not_mem_oldest completedSnapshotDirs_sorted newer (by omega))).bind ?_
  rintro - repo₁ kept
  apply Ends.get_bind
  refine ((ends_collectAll _).mono (fun _ _ collected => collected) (by rintro _ rfl; exact kept)).bind ?_
  rintro referenced _ ⟨rfl, covers⟩
  apply Ends.get_bind
  refine (ends_removeUnreferenced kept fun name dir completed =>
    covers name (mem_completedSnapshotDirs.mpr ⟨dir, completed⟩) dir completed.present).bind ?_
  rintro - repo₂ kept
  exact ends_step kept kept

end Programs

section Storing

variable {call : StoreCall} {entries : List SnapshotFileEntry}

/-- Objects were added, and the snapshots are the same. -/
structure Extended (sha : Sha256) (repository repository' : LocalSnapshotRepository) : Prop where
  kept : Maintained sha repository'
  snapshots : repository'.snapshots = repository.snapshots
  holds : ∀ hash, repository.HoldsObject hash → repository'.HoldsObject hash

section

variable (extended : Extended sha repo repo')

include extended

theorem Extended.putTemporary (length : hash.length = 64)
    (content : Bytes) : Extended sha repo (repo'.putObject (temporaryName hash) content) :=
  { extended with
    kept := extended.kept.putObject fun contrary => absurd contrary (length_temporaryName length)
    holds := fun other held => (extended.holds other held).putObject }

theorem Extended.removeTemporary (length : hash.length = 64) :
    Extended sha repo (repo'.removeObject (temporaryName hash)) where
  kept := extended.kept.removeTemporary (length_temporaryName length)
  snapshots := extended.snapshots
  holds other held := by
    apply (extended.holds other held).removeObject
    rintro rfl
    exact length_temporaryName length held.length

theorem Extended.putObject {content : Bytes}
    (hashed : sha.file content = hash) : Extended sha repo (repo'.putObject hash content) :=
  { extended with
    kept := extended.kept.putObject fun _ => hashed
    holds := fun other held => (extended.holds other held).putObject }

/-- The object that was copied is there, with its hash. -/
theorem ends_copyObject {content : Bytes} (length : hash.length = 64) :
    Ends (copyObject sha faults hash content) repo'
      (fun _ after => Extended sha repo after ∧ after.HoldsObject hash) (Maintained sha) := by
  have created := extended.putTemporary length []
  have copied := created.putTemporary length content
  refine ends_step_bind ?_ extended.kept
  refine ends_step_bind ?_ created.kept
  split_ifs with changed
  · exact ends_discard_tryStep_bind (copied.removeTemporary length).kept copied.kept copied.kept
  · refine ends_step ⟨(copied.putObject (not_not.mp changed)).removeTemporary length, ?_⟩ copied.kept
    refine HoldsObject.removeObject ⟨length, by simp [LocalSnapshotRepository.putObject]⟩ ?_
    intro same
    exact length_temporaryName length (same ▸ length)

end

theorem ends_copyOrLinkObject {source : Option Bytes} (kept : Maintained sha repo) (length : hash.length = 64) :
    Ends (copyOrLinkObject sha faults source hash) repo
      (fun _ after => Extended sha repo after ∧ after.HoldsObject hash) (Maintained sha) := by
  have start : Extended sha repo repo := ⟨kept, rfl, fun _ held => held⟩
  refine ends_step_bind ?_ kept
  apply Ends.get_bind
  dsimp only [id]
  split_ifs with matching existing
  · refine ⟨start, length, mem_iff_isSome_getElem?.mpr ?_⟩
    exact Option.isSome_of_any matching
  · obtain ⟨content, present⟩ := Option.isSome_iff_exists.mp existing
    rw [present] at matching
    exact absurd (beq_iff_eq.mpr (kept.stored hash content length present)) matching
  · cases source with
    | none => exact ends_discard_tryStep_bind (start.removeTemporary length).kept kept kept
    | some content =>
      exact ends_discard_tryStep_bind (ends_copyObject (start.removeTemporary length) length)
        (ends_copyObject start length) kept

/-- What the loop over the entries keeps: the entries that are left are the only ones without their objects. -/
structure Gathering (sha : Sha256) (repository : LocalSnapshotRepository) (entries rest : List SnapshotFileEntry)
    (totals : StoreTotals) (repository' : LocalSnapshotRepository) : Prop where
  kept : Maintained sha repository'
  snapshots : repository'.snapshots = repository.snapshots
  unique : ∀ hash ∈ totals.uniqueObjectSizes, repository'.HoldsObject hash
  held : ∀ entry ∈ entries, entry ∈ rest ∨ repository'.HoldsObject entry.sha256

variable {totals : StoreTotals} {entry : SnapshotFileEntry}

/-- One more entry has its object. -/
theorem Gathering.next {rest : List SnapshotFileEntry} {totals' : StoreTotals} {after : LocalSnapshotRepository}
    (gathering : Gathering sha repo entries (entry :: rest) totals repo') (extended : Extended sha repo' after)
    (holds : after.HoldsObject entry.sha256)
    (unique : ∀ hash ∈ totals'.uniqueObjectSizes, hash = entry.sha256 ∨ hash ∈ totals.uniqueObjectSizes) :
    Gathering sha repo entries rest totals' after where
  kept := extended.kept
  snapshots := extended.snapshots.trans gathering.snapshots
  unique hash mem := by
    rcases unique hash mem with rfl | known
    · exact holds
    · exact extended.holds hash (gathering.unique hash known)
  held other mem := by
    rcases gathering.held other mem with left | held
    · rcases mem_cons.mp left with rfl | left
      · exact .inr holds
      · exact .inl left
    · exact .inr (extended.holds other.sha256 held)

theorem mem_addUnique (mem : hash ∈ (totals.addUnique entry).uniqueObjectSizes) :
    hash = entry.sha256 ∨ hash ∈ totals.uniqueObjectSizes := by
  simp only [StoreTotals.addUnique, mem_insert, Std.LawfulEqCmp.compare_eq_iff_eq] at mem
  exact mem.imp Eq.symm id

theorem ends_storeEntry {rest : List SnapshotFileEntry}
    (gathering : Gathering sha repo entries (entry :: rest) totals repo') :
    Ends (storeEntry sha call totals entry) repo' (Gathering sha repo entries rest) (Maintained sha) := by
  have unchanged : Extended sha repo' repo' := ⟨gathering.kept, rfl, fun _ held => held⟩
  rw [storeEntry]
  dsimp only
  split_ifs with known
  · exact gathering.next unchanged (gathering.unique _ known) fun _ mem => .inr mem
  refine Ends.require gathering.kept fun length => ?_
  apply Ends.get_bind
  split_ifs with present
  · exact gathering.next unchanged ⟨of_decide_eq_true length, present⟩ fun _ => mem_addUnique
  · refine (ends_copyOrLinkObject gathering.kept (of_decide_eq_true length)).bind ?_
    rintro - after ⟨extended, holds⟩
    exact gathering.next extended holds fun _ => mem_addUnique

/-- No more newer snapshots are completed than before. -/
theorem Spared.mono {retentionCount : ℕ} (spared : Spared repo retentionCount backupId)
    (fewer : ∀ name dir, repo'.Completed name dir → backupId < name → ∃ dir, repo.Completed name dir) :
    Spared repo' retentionCount backupId := by
  refine spared.imp_right fun newer => lt_of_le_of_lt ?_ newer
  apply Subperm.length_le
  apply subperm_of_subset
  · exact (completedSnapshotDirs_sorted.imp ne_of_lt).filter _
  · intro name mem
    obtain ⟨completed, above⟩ := mem_filter.mp mem
    obtain ⟨dir, completed⟩ := mem_completedSnapshotDirs.mp completed
    exact mem_filter.mpr
      ⟨mem_completedSnapshotDirs.mpr (fewer name dir completed (of_decide_eq_true above)), above⟩

/-- The partial directory of a call, while its metadata is written. -/
structure Filling (sha : Sha256) (call : StoreCall) (entries : List SnapshotFileEntry) (dir : SnapshotDir)
    (repository : LocalSnapshotRepository) : Prop where
  kept : Maintained sha repository
  filled : repository.snapshots[partialName call.backupId]? = some dir
  free : repository.snapshots[call.backupId]? = none
  held : ∀ entry ∈ entries, repository.HoldsObject entry.sha256
  spared : Spared repository call.retentionCount call.backupId

theorem whole_ne_partialName (whole : isPartial name = false) : name ≠ partialName backupId := by
  rintro rfl
  rw [isPartial_partialName] at whole
  contradiction

theorem whole_backupId : isPartial call.backupId = false := isPartial_makeBackupId ..

section

variable (filling : Filling sha call entries dir repo)

include filling

theorem Filling.changeSnapshot (f : SnapshotDir → SnapshotDir) :
    Filling sha call entries (f dir) (repo.changeSnapshot (partialName call.backupId) f) where
  kept := filling.kept.of_partial (isPartial_partialName _) rfl rfl fun _ => changeSnapshot_other
  filled := by rw [changeSnapshot_self, filling.filled, Option.map_some]
  free := by
    rw [changeSnapshot_other (whole_ne_partialName whole_backupId)]
    exact filling.free
  held entry mem := ⟨(filling.held entry mem).length, (filling.held entry mem).present⟩
  spared := by
    apply filling.spared.mono
    intro name dir completed above
    exact ⟨dir, completed.congr (changeSnapshot_other (whole_ne_partialName completed.whole)).symm⟩

theorem ends_writeMetadata {file : MetadataFile} {set : SnapshotDir → SnapshotDir} :
    Ends (writeMetadata faults (partialName call.backupId) file set) repo
      (fun _ => Filling sha call entries (set dir)) (Maintained sha) :=
  ends_step_bind (ends_step (filling.changeSnapshot set) filling.kept) filling.kept

/-- The snapshot is completed by the rename. -/
theorem Filling.renameSnapshot (named : dir.entries = entries) :
    Maintained sha (repo.renameSnapshot (partialName call.backupId) call.backupId) where
  stored := filling.kept.stored
  held name dir' completed entry mem := by
    by_cases same : name = call.backupId
    · subst same
      have present := completed.present
      rw [renameSnapshot_destination (whole_ne_partialName whole_backupId), filling.filled,
        Option.some.injEq] at present
      subst present
      rw [named] at mem
      exact ⟨(filling.held entry mem).length, (filling.held entry mem).present⟩
    · have before := completed.congr (renameSnapshot_other (whole_ne_partialName completed.whole) same).symm
      have held := filling.kept.held name dir' before entry mem
      exact ⟨held.length, held.present⟩
  named := by
    refine filling.kept.named.congr rfl fun name dir' _ completed => ?_
    refine renameSnapshot_other (whole_ne_partialName completed.whole) ?_
    rintro rfl
    exact completed.present_ne filling.free

end

theorem ends_writeLatest (kept : Maintained sha repo) :
    Ends (writeLatest faults backupId) repo (fun _ after => after = repo.setLatest (some backupId))
      (Maintained sha) :=
  ends_step_bind (ends_step rfl kept) kept

theorem ends_completeSnapshot (filling : Filling sha call entries {} repo) :
    Keeps sha (completeSnapshot call entries totals) repo := by
  refine (ends_writeMetadata filling).bind fun _ s₁ filling => ?_
  refine (ends_writeMetadata filling).bind fun _ s₂ filling => ?_
  refine (ends_writeMetadata filling).bind fun _ s₃ filling => ?_
  have renamed := filling.renameSnapshot rfl
  have named : Maintained sha
      ((s₃.renameSnapshot (partialName call.backupId) call.backupId).setLatest (some call.backupId)) := by
    apply renamed.toIntact.setLatest
    rintro _ ⟨⟩
    exact ⟨_, whole_backupId,
      (renameSnapshot_destination (whole_ne_partialName whole_backupId)).trans filling.filled, rfl⟩
  have spared : Spared ((s₃.renameSnapshot (partialName call.backupId) call.backupId).setLatest (some call.backupId))
      call.retentionCount call.backupId := by
    apply filling.spared.mono
    intro name dir' completed above
    exact ⟨dir', completed.congr (renameSnapshot_other (whole_ne_partialName completed.whole) above.ne').symm⟩
  refine ends_step_bind ?_ filling.kept
  refine (ends_writeLatest renamed).bind ?_
  rintro - _ rfl
  exact (ends_pruneLocalSnapshotRepository named rfl spared).bind fun _ _ kept => kept

/-- The partial directory exists and is empty. -/
theorem ends_fillSnapshot (kept : Maintained sha repo) (created : repo.snapshots[partialName call.backupId]? = some {})
    (free : repo.snapshots[call.backupId]? = none) (spared : Spared repo call.retentionCount call.backupId) :
    Keeps sha (fillSnapshot sha call) repo := by
  refine ends_step_bind ?_ kept
  refine Ends.require kept fun _ => ?_
  have start : Gathering sha repo (buildFileInventory sha call.files) (buildFileInventory sha call.files) {}
      repo := ⟨kept, rfl, by simp, fun _ mem => .inl mem⟩
  refine (Ends.foldlM (Gathering sha repo _) (fun _ _ _ _ gathering => ends_storeEntry gathering) start).bind ?_
  intro totals after gathered
  apply ends_completeSnapshot
  exact
    { kept := gathered.kept
      filled := by rw [gathered.snapshots]; exact created
      free := by rw [gathered.snapshots]; exact free
      held := fun entry mem => (gathered.held entry mem).resolve_left (not_mem_nil)
      spared := spared.mono fun name dir completed _ => ⟨dir, completed.congr (by rw [gathered.snapshots])⟩ }

theorem ends_abandonSnapshot {reason : Interrupt} (kept : Maintained sha repo) :
    Keeps sha (abandonSnapshot faults (partialName backupId) reason) repo := by
  cases reason with
  | stopped => exact kept
  | failed message =>
    have removed : Keeps sha (discard (removeAll faults (partialName backupId))) repo := by
      apply Ends.discard
      have spared (after : LocalSnapshotRepository) (reduced : Reduced (partialName backupId) repo after) :=
        kept.of_partial (isPartial_partialName _) reduced.objects reduced.latest reduced.others
      exact ends_removeAll.mono (fun _ after removed => spared after removed.1) spared
    exact removed.bind fun _ _ kept => kept

theorem ends_storeCheckpointSnapshot (kept : Maintained sha repo)
    (spared : Spared repo call.retentionCount call.backupId) : Keeps sha (storeCheckpointSnapshot sha call) repo := by
  apply Ends.get_bind
  refine Ends.require kept fun fresh => ?_
  obtain ⟨-, free⟩ := of_decide_eq_true fresh
  refine ends_step_bind ?_ kept
  have whole : call.backupId ≠ partialName call.backupId := whole_ne_partialName whole_backupId
  refine Ends.tryCatch (ends_fillSnapshot ?_ setSnapshot_self ?_ ?_) fun _ _ kept => ends_abandonSnapshot kept
  · exact kept.of_partial (isPartial_partialName _) rfl rfl fun _ => setSnapshot_other
  · rw [setSnapshot_other whole]
    exact getElem?_eq_none free
  · apply spared.mono
    intro name dir completed above
    exact ⟨dir, completed.congr (setSnapshot_other (whole_ne_partialName completed.whole)).symm⟩

end Storing

section Deleting

variable {call : DeleteCall}

/-- Nothing of the deletion fails or is cut once it removes something. -/
structure Uncut (faults : RepositoryFaults) (backupId : String) : Prop where
  removal : faults.removals backupId = .done
  objects : ∀ hash, faults.steps (.removeObject hash) = .none
  directories : faults.steps .pruneDirectories = .none
  writeLatest : faults.steps .writeLatest = .none
  renameLatest : faults.steps .renameLatest = .none
  removeLatest : faults.steps .removeLatest = .none

/-- The objects are named by no completed snapshot. -/
def Unnamed (objects : List (String × Bytes)) (repository : LocalSnapshotRepository) : Prop :=
  ∀ object ∈ objects, ∀ name dir, repository.Completed name dir → ∀ entry ∈ dir.entries, entry.sha256 ≠ object.1

/-- Only objects changed. -/
structure Trimmed (sha : Sha256) (repository repository' : LocalSnapshotRepository) : Prop
    extends Intact sha repository' where
  snapshots : repository'.snapshots = repository.snapshots
  latest : repository'.latest = repository.latest

theorem Trimmed.completed (trimmed : Trimmed sha repo repo') : repo'.Completed name dir ↔ repo.Completed name dir := by
  constructor <;> exact fun completed => completed.congr (by rw [trimmed.snapshots])

theorem Trimmed.kept (trimmed : Trimmed sha repo repo') (named : repo.Named) : Maintained sha repo' where
  toIntact := trimmed.toIntact
  named := named.congr trimmed.latest fun _ _ _ _ => by rw [trimmed.snapshots]

/-- Either nothing cuts the removal, or `latest.json` names another snapshot. -/
theorem ends_removeObjects {objects : List (String × Bytes)} (intact : Intact sha repo) (unnamed : Unnamed objects repo)
    (calm : Uncut faults backupId ∨ repo.Named) :
    Ends (removeObjects faults objects) repo (fun _ => Trimmed sha repo) (Maintained sha) := by
  refine (Ends.forM (fun rest after => Trimmed sha repo after ∧ Unnamed rest repo) ?_
    ⟨⟨intact, rfl, rfl⟩, unnamed⟩).mono (fun _ _ after => after.1) fun _ kept => kept
  rintro object rest after ⟨trimmed, unnamed⟩
  have removed : Trimmed sha repo (after.removeObject object.1) :=
    { toIntact := trimmed.toIntact.removeObject fun name dir completed =>
        unnamed object (mem_cons_self ..) name dir (trimmed.completed.mp completed)
      snapshots := trimmed.snapshots
      latest := trimmed.latest }
  have left : Unnamed rest repo := fun other mem => unnamed other (mem_cons_of_mem _ mem)
  rcases calm with uncut | named
  · exact ends_step_none (uncut.objects object.1) ⟨removed, left⟩
  · exact ends_step ⟨removed, left⟩ (trimmed.kept named)

/-- The snapshot is gone, unless `latest.json` names another one and something cut the removal. -/
theorem ends_removeAll_calm (kept : Maintained sha repo) (calm : repo.latest = some name → Uncut faults name) :
    Ends (removeAll faults name) repo
      (fun removed after => Reduced name repo after ∧ (removed = false → Maintained sha after) ∧
        (removed = true → after.snapshots[name]? = none))
      (Maintained sha) := by
  by_cases latest : repo.latest = some name
  · rw [removeAll, (calm latest).removal]
    exact ⟨reduced_eraseSnapshot, fun contrary => absurd contrary (by decide), fun _ => eraseSnapshot_self⟩
  · refine ends_removeAll.mono ?_ fun _ reduced => kept.reduced reduced latest
    rintro removed after ⟨reduced, gone⟩
    exact ⟨reduced, fun _ => kept.reduced reduced latest, gone⟩

theorem ends_replaceLatest {newLatest : String} (intact : Intact sha repo) (uncut : Uncut faults backupId)
    (completed : newLatest ≠ "" → ∃ dir, repo.Completed newLatest dir) :
    Keeps sha (replaceLatest faults newLatest) repo := by
  rw [replaceLatest]
  split_ifs with none
  · exact ends_step_none uncut.removeLatest (intact.setLatest fun _ contrary => absurd contrary (by simp))
  · refine ends_step_none_bind uncut.writeLatest (ends_step_none uncut.renameLatest ?_)
    apply Intact.setLatest intact
    rintro _ ⟨⟩
    exact completed none

/-- The objects to be removed belong to no other snapshot, and the new latest snapshot is another one. -/
structure Plans (plan : DeletionPlan) (backupId : String) (repository : LocalSnapshotRepository) : Prop where
  unnamed : ∀ object ∈ plan.objects, ∀ name dir, name ≠ backupId → repository.Completed name dir →
    ∀ entry ∈ dir.entries, entry.sha256 ≠ object.1
  latest : plan.deletedLatest = true ↔ repository.latest = some backupId
  newest : plan.deletedLatest = true → plan.newLatestBackupId ≠ "" →
    plan.newLatestBackupId ≠ backupId ∧ ∃ dir, repository.Completed plan.newLatestBackupId dir

theorem Plans.unnamed_reduced {plan : DeletionPlan} (plans : Plans plan backupId repo)
    (reduced : Reduced backupId repo repo') (gone : repo'.snapshots[backupId]? = none) :
    Unnamed plan.objects repo' := by
  intro object mem name dir completed
  have other : name ≠ backupId := by
    rintro rfl
    exact completed.present_ne gone
  exact plans.unnamed object mem name dir other (completed.congr (reduced.others name other).symm)

theorem ends_removeSnapshot {plan : DeletionPlan} (kept : Maintained sha repo) (plans : Plans plan call.backupId repo)
    (calm : repo.latest = some call.backupId → Uncut call.faults call.backupId) :
    Keeps sha (removeSnapshot call plan) repo := by
  refine (ends_removeAll_calm kept calm).bind ?_
  rintro removed after ⟨reduced, failed, gone⟩
  cases removed with
  | false => exact failed rfl
  | true =>
    have unnamed := plans.unnamed_reduced reduced (gone rfl)
    have intact := kept.toIntact.reduced reduced
    cases deleted : plan.deletedLatest with
    | false =>
      have named : after.Named := by
        refine (kept.reduced reduced fun latest => ?_).named
        rw [plans.latest.mpr latest] at deleted
        contradiction
      have spared : Uncut call.faults call.backupId ∨ after.Named := .inr named
      refine (ends_removeObjects intact unnamed spared).bind fun _ rest trimmed => ?_
      exact ends_step_bind (trimmed.kept named) (trimmed.kept named)
    | true =>
      have uncut := calm (plans.latest.mp deleted)
      refine (ends_removeObjects intact unnamed (.inl uncut)).bind fun _ rest trimmed => ?_
      refine ends_step_none_bind uncut.directories ?_
      rw [if_pos rfl]
      apply ends_replaceLatest trimmed.toIntact uncut
      intro found
      obtain ⟨other, dir, completed⟩ := plans.newest deleted found
      exact ⟨dir, trimmed.completed.mpr (completed.congr (reduced.others _ other))⟩

theorem mem_reclaimableObjects {remaining : Std.ExtTreeSet String} {object : String × Bytes}
    (mem : object ∈ reclaimableObjects repo dir remaining) : object.1 ∉ remaining := by
  obtain ⟨hash, -, chosen⟩ := mem_filterMap.mp mem
  split_ifs at chosen with referenced
  obtain ⟨content, -, rfl⟩ := Option.map_eq_some_iff.mp chosen
  exact referenced

theorem isBackupIdPathComponent_ne (component : isBackupIdPathComponent backupId = true) : backupId ≠ "" := by
  rintro rfl
  contradiction

/-- What a deletion finds is what it may remove. -/
theorem plans_of_collected {remaining : Std.ExtTreeSet String} (nonempty : backupId ≠ "")
    (covers : ∀ name ∈ (completedSnapshotDirs repo).filter (· ≠ backupId), ∀ dir,
      repo.snapshots[name]? = some dir → ∀ entry ∈ dir.entries, entry.sha256 ∈ remaining) :
    Plans
      { objects := reclaimableObjects repo dir remaining
        deletedLatest := readLatestBackupId repo == backupId
        newLatestBackupId := if readLatestBackupId repo == backupId then
          newestCompletedBackupId repo backupId else readLatestBackupId repo }
      backupId repo where
  unnamed object mem name dir' other completed entry isEntry same := by
    apply mem_reclaimableObjects mem
    rw [← same]
    refine covers name (mem_filter.mpr ⟨?_, decide_eq_true other⟩) dir' completed.present entry isEntry
    exact mem_completedSnapshotDirs.mpr ⟨dir', completed⟩
  latest := by
    rw [beq_iff_eq, readLatestBackupId]
    cases repo.latest with
    | none => simpa using nonempty.symm
    | some latest => simp
  newest deleted found := by
    simp only [if_pos deleted] at found ⊢
    obtain ⟨other, mem⟩ := newest_mem (Subset.refl _) (absurd rfl) found
    exact ⟨other, mem_completedSnapshotDirs.mp mem⟩

theorem ends_deleteLocalBackupSnapshot (kept : Maintained sha repo)
    (calm : call.dryRun = false → repo.latest = some call.backupId →
      Uncut call.faults call.backupId) : Keeps sha (deleteLocalBackupSnapshot call) repo := by
  refine Ends.require kept fun _ => ?_
  refine Ends.require kept fun component => ?_
  apply Ends.get_bind
  cases present : repo.snapshots[call.backupId]? with
  | none => exact kept
  | some dir =>
    refine Ends.require kept fun _ => ?_
    refine ends_step_bind ?_ kept
    refine Ends.require kept fun _ => ?_
    refine ((ends_collectAll _).mono (fun _ _ collected => collected) ?_).bind ?_
    · rintro _ rfl
      exact kept
    rintro remaining after ⟨same, covers⟩
    subst after
    dsimp only [id]
    by_cases dry : call.dryRun = true
    · rw [if_pos dry]
      exact kept
    · rw [if_neg dry]
      refine Ends.bind (ends_removeSnapshot kept ?_ (calm (Bool.eq_false_iff.mpr dry))) fun _ _ kept => kept
      exact plans_of_collected (isBackupIdPathComponent_ne component) covers

end Deleting

section Runs

/-- Retention spares the snapshot that is stored, and a deletion of the latest snapshot is not cut short. -/
def RepositoryCall.KeepsLatest (repository : LocalSnapshotRepository) : RepositoryCall → Prop
  | .store call => Spared repository call.retentionCount call.backupId
  | .delete call => call.dryRun = false → repository.latest = some call.backupId →
      Uncut call.faults call.backupId

/-- Every call of a run keeps the latest snapshot, from the repository that it starts with. -/
def AllKeepLatest (sha : Sha256) : LocalSnapshotRepository → List RepositoryCall → Prop
  | _, [] => True
  | repository, call :: rest => call.KeepsLatest repository ∧ AllKeepLatest sha (call.run sha repository) rest

theorem kept_runRepositoryCalls {calls : List RepositoryCall} (kept : Maintained sha repo)
    (keep : AllKeepLatest sha repo calls) : Maintained sha (runRepositoryCalls sha repo calls) := by
  induction calls generalizing repo with
  | nil => exact kept
  | cons call rest ih =>
    refine ih ?_ keep.2
    cases call with
    | store call => exact (ends_storeCheckpointSnapshot kept keep.1).final
    | delete call => exact (ends_deleteLocalBackupSnapshot kept keep.1).final

/-- Every repository that calls reach is sound, wherever they fail or are cut, if each of them keeps the latest
snapshot. -/
theorem repository_sound (sha : Sha256) (calls : List RepositoryCall) (keep : AllKeepLatest sha {} calls) :
    (runRepositoryCalls sha {} calls).Sound sha :=
  (kept_runRepositoryCalls kept_empty keep).sound

/-- Store a checkpoint of one file and keep one snapshot. -/
def sampleStore (timestamp : String) : StoreCall where
  timestamp := timestamp
  epochMilliseconds := 0
  files := { checkpoint := [("db/CURRENT", [1])] }
  sources _ := some [1]
  retentionCount := 1

/-- The second snapshot is newer than the first one. -/
theorem repository_sound_newer :
    (runRepositoryCalls sampleSha {} [.store (sampleStore "1"), .store (sampleStore "2")]).Sound sampleSha :=
  repository_sound sampleSha _ ⟨.inr (by decide +kernel), .inr (by decide +kernel), trivial⟩

/-- The clock goes back between two backups. -/
def clockBackCalls : List RepositoryCall := [.store (sampleStore "2"), .store (sampleStore "1")]

/-- The latest snapshot is deleted, and the process stops before `latest.json` is removed. -/
def cutDeletionCalls : List RepositoryCall :=
  [.store (sampleStore "1"), .delete
    { backupId := (sampleStore "1").backupId
      faults := { steps := fun step => if step = .removeLatest then .stops else .none } }]

/-- Retention removes the older name, which `latest.json` has just been given; a cut deletion leaves `latest.json`
behind. -/
theorem latest_dangles :
    ¬ (runRepositoryCalls sampleSha {} clockBackCalls).Sound sampleSha ∧
      ¬ (runRepositoryCalls sampleSha {} cutDeletionCalls).Sound sampleSha := by
  constructor
  · intro sound
    obtain ⟨dir, completed⟩ := sound.latest (sampleStore "1").backupId (by decide +kernel)
    exact completed.present_ne (by decide +kernel)
  · intro sound
    obtain ⟨dir, completed⟩ := sound.latest (sampleStore "1").backupId (by decide +kernel)
    exact completed.present_ne (by decide +kernel)

end Runs

end Teleno.Backup
