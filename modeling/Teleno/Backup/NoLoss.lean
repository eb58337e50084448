import Teleno.Library.MapFold
import Teleno.Backup.Activation

/-! # Activation does not lose a database

Whatever fails and wherever the process stops, the database that was at the target stays there or in a preservation
directory. The staged database stays complete at one of its two places, as long as no call starts from a staged
database that an earlier call had begun to remove.
-/

namespace Teleno.Backup

open Library Disk Std.ExtTreeMap

/-- A directory with exactly these files. -/
def Holds (disk : RestoreDisk) (place : Place) (files : Dir) : Prop :=
  ∃ placedBy, disk place = some (.dir files placedBy)

/-- What lies in a preservation directory lies in one that exists. -/
def Filed (disk : RestoreDisk) : Prop :=
  ∀ name path, (disk (.preRestore name path)).isSome → (disk (.preRestoreDir name)).isSome

/-- An item is still the node's database or was preserved. -/
def Kept (item : Item) (disk : RestoreDisk) : Prop :=
  disk (.target "db") = some item ∨ ∃ name, disk (.preRestore name "db") = some item

/-- The staged database is complete at one of its places. -/
def Available (stagingDir : String) (staged : Dir) (disk : RestoreDisk) : Prop :=
  Holds disk (.staging stagingDir "db") staged ∨ Holds disk (.target "db") staged

/-- What every state of a run keeps: a database that was there at the start, and the staged one. -/
structure NothingLost (original : Option Item) (stagingDir : String) (staged : Dir) (disk : RestoreDisk) : Prop where
  kept : ∀ item, original = some item → Kept item disk
  available : Available stagingDir staged disk
  filed : Filed disk

/-- The original database lies in a preservation directory. -/
structure PutAside (original : Option Item) (disk : RestoreDisk) : Prop where
  aside : ∀ item, original = some item → ∃ name, disk (.preRestore name "db") = some item
  filed : Filed disk

/-- The preservation directory of a call exists, and the database is not in it yet. -/
structure Opened (original : Option Item) (stagingDir name : String) (staged : Dir) (disk : RestoreDisk) : Prop where
  kept : ∀ item, original = some item → Kept item disk
  staged : Holds disk (.staging stagingDir "db") staged
  filed : Filed disk
  created : (disk (.preRestoreDir name)).isSome
  free : disk (.preRestore name "db") = none

/-- The place of the database is free. -/
structure Vacated (original : Option Item) (stagingDir name : String) (staged : Dir) (disk : RestoreDisk) : Prop
    extends PutAside original disk where
  staged : Holds disk (.staging stagingDir "db") staged
  created : (disk (.preRestoreDir name)).isSome
  vacant : disk (.target "db") = none

/-- Some files were copied, and the staged database is still there. -/
structure Copying (original : Option Item) (stagingDir : String) (staged files : Dir) (disk : RestoreDisk) : Prop
    extends PutAside original disk where
  staged : Holds disk (.staging stagingDir "db") staged
  copied : Holds disk (.target "db") files

/-- The staged database is at the target. -/
structure Installed (original : Option Item) (staged : Dir) (disk : RestoreDisk) : Prop
    extends PutAside original disk where
  placed : Holds disk (.target "db") staged

variable {original : Option Item} {stagingDir name : String} {staged : Dir} {disk : RestoreDisk} {formats : Formats}

section Changes

variable {path : String} {files : Dir} {disk' : RestoreDisk}

theorem Holds.congr {place : Place} (held : Holds disk place files) (same : disk' place = disk place) :
    Holds disk' place files := by
  obtain ⟨placedBy, present⟩ := held
  exact ⟨placedBy, same.trans present⟩

/-- Only the preservation directories matter. -/
theorem PutAside.congr (put : PutAside original disk)
    (paths : ∀ name path, disk' (.preRestore name path) = disk (.preRestore name path))
    (dirs : ∀ name, disk' (.preRestoreDir name) = disk (.preRestoreDir name)) : PutAside original disk' where
  aside item isOriginal := by
    obtain ⟨name, present⟩ := put.aside item isOriginal
    exact ⟨name, (paths name "db").trans present⟩
  filed name path present := by
    rw [dirs]
    rw [paths] at present
    exact put.filed name path present

theorem Opened.nothingLost (opened : Opened original stagingDir name staged disk) :
    NothingLost original stagingDir staged disk :=
  ⟨opened.kept, .inl opened.staged, opened.filed⟩

theorem PutAside.nothingLost (put : PutAside original disk) (available : Available stagingDir staged disk) :
    NothingLost original stagingDir staged disk :=
  ⟨fun item isOriginal => .inr (put.aside item isOriginal), available, put.filed⟩

theorem Vacated.nothingLost (vacated : Vacated original stagingDir name staged disk) :
    NothingLost original stagingDir staged disk :=
  vacated.toPutAside.nothingLost (.inl vacated.staged)

theorem Copying.nothingLost (copying : Copying original stagingDir staged files disk) :
    NothingLost original stagingDir staged disk :=
  copying.toPutAside.nothingLost (.inl copying.staged)

theorem Installed.nothingLost (installed : Installed original staged disk) :
    NothingLost original stagingDir staged disk :=
  installed.toPutAside.nothingLost (.inr installed.placed)

/-- A path that goes into an existing preservation directory. -/
theorem Filed.rename (filed : Filed disk) (created : (disk (.preRestoreDir name)).isSome) :
    Filed (disk.rename (.target path) (.preRestore name path)) := by
  intro name' path' present
  rw [rename_other (by simp) (by simp)]
  by_cases same : Place.preRestore name' path' = .preRestore name path
  · obtain ⟨rfl, rfl⟩ := Place.preRestore.inj same
    exact created
  · rw [rename_other (by simp) same] at present
    exact filed name' path' present

theorem Vacated.rename (vacated : Vacated original stagingDir name staged disk) (other : path ≠ "db") :
    Vacated original stagingDir name staged (disk.rename (.target path) (.preRestore name path)) where
  aside item isOriginal := by
    obtain ⟨name', present⟩ := vacated.aside item isOriginal
    exact ⟨name', (rename_other (by simp) (by simp [other.symm])).trans present⟩
  filed := vacated.filed.rename vacated.created
  staged := vacated.staged.congr (rename_other (by simp) (by simp))
  created := by
    rw [rename_other (by simp) (by simp)]
    exact vacated.created
  vacant := (rename_other (by simp [other.symm]) (by simp)).trans vacated.vacant

/-- The database itself is put aside, where no other one was put. -/
theorem Opened.rename (opened : Opened original stagingDir name staged disk) :
    Vacated original stagingDir name staged (disk.rename (.target "db") (.preRestore name "db")) where
  aside item isOriginal := by
    rcases opened.kept item isOriginal with present | ⟨name', present⟩
    · exact ⟨name, (rename_destination (by simp)).trans present⟩
    · have differ : name' ≠ name := by
        rintro rfl
        rw [opened.free] at present
        contradiction
      exact ⟨name', (rename_other (by simp) (by simp [differ])).trans present⟩
  filed := opened.filed.rename opened.created
  staged := opened.staged.congr (rename_other (by simp) (by simp))
  created := by
    rw [rename_other (by simp) (by simp)]
    exact opened.created
  vacant := rename_source

/-- There is no database to put aside. -/
theorem Opened.vacated (opened : Opened original stagingDir name staged disk) (vacant : disk (.target "db") = none) :
    Vacated original stagingDir name staged disk where
  aside item isOriginal := by
    refine (opened.kept item isOriginal).resolve_left fun present => ?_
    rw [vacant] at present
    contradiction
  filed := opened.filed
  staged := opened.staged
  created := opened.created
  vacant := vacant

/-- The staged database is renamed to the target. -/
theorem Vacated.install (vacated : Vacated original stagingDir name staged disk) (activation : String) :
    Installed original staged ((disk.rename (.staging stagingDir "db") (.target "db")).change (.target "db")
      (.place activation)) where
  toPutAside := vacated.toPutAside.congr
    (fun _ _ => (change_other (by simp)).trans (rename_other (by simp) (by simp)))
    (fun _ => (change_other (by simp)).trans (rename_other (by simp) (by simp)))
  placed := by
    obtain ⟨placedBy, present⟩ := vacated.staged
    refine ⟨some activation, ?_⟩
    rw [change_self, rename_destination (by simp), present]
    rfl

theorem Vacated.createDirectory (vacated : Vacated original stagingDir name staged disk) (activation : String) :
    Copying original stagingDir staged ∅ (createDirectory activation (.target "db") disk) := by
  have created : Backup.createDirectory activation (.target "db") disk =
      disk.put (.target "db") (.dir ∅ (some activation)) := by
    rw [Backup.createDirectory, vacated.vacant]
  rw [created]
  exact {
    toPutAside := vacated.toPutAside.congr (fun _ _ => put_other (by simp)) (fun _ => put_other (by simp))
    staged := vacated.staged.congr (put_other (by simp))
    copied := ⟨some activation, put_self⟩ }

theorem Copying.putFile (copying : Copying original stagingDir staged files disk) (file : String) (content : Bytes) :
    Copying original stagingDir staged (files.insert file content)
      (disk.change (.target "db") (.putFile file content)) where
  toPutAside := copying.toPutAside.congr (fun _ _ => change_other (by simp)) (fun _ => change_other (by simp))
  staged := copying.staged.congr (change_other (by simp))
  copied := by
    obtain ⟨placedBy, present⟩ := copying.copied
    refine ⟨placedBy, ?_⟩
    rw [change_self, present]
    rfl

section

variable (installed : Installed original staged disk)

include installed

theorem Installed.put (other : path ≠ "db") (item : Item) :
    Installed original staged (disk.put (.target path) item) where
  toPutAside := installed.toPutAside.congr (fun _ _ => put_other (by simp)) (fun _ => put_other (by simp))
  placed := installed.placed.congr (put_other (by simp [other.symm]))

theorem Installed.removeFile (file : String) :
    Installed original staged (disk.change (.staging stagingDir "db") (.removeFile file)) where
  toPutAside := installed.toPutAside.congr (fun _ _ => change_other (by simp))
    (fun _ => change_other (by simp))
  placed := installed.placed.congr (change_other (by simp))

theorem Installed.remove : Installed original staged (disk.remove (.staging stagingDir "db")) where
  toPutAside := installed.toPutAside.congr (fun _ _ => remove_other (by simp))
    (fun _ => remove_other (by simp))
  placed := installed.placed.congr (remove_other (by simp))

end

end Changes

section Programs

variable {faults : ActivationStep → Fault}

theorem ends_preserve_db (opened : Opened original stagingDir name staged disk) :
    Ends (preserveExistingPath faults name "db") disk (fun _ => Vacated original stagingDir name staged)
      (NothingLost original stagingDir staged) := by
  rw [preserveExistingPath]
  refine .get_bind ?_
  split_ifs with vacant
  · exact .pure (opened.vacated (Option.isNone_iff_eq_none.mp vacant))
  · refine ends_step_bind ?_ opened.nothingLost
    exact ends_step_bind (.pure opened.rename) opened.nothingLost

theorem foldl_insert_toList (files : Dir) :
    files.toList.foldl (fun copied entry => copied.insert entry.1 entry.2) ∅ = files := by
  refine ext_getElem? fun file => ?_
  rw [getElem?_foldl_insert_toList, getElem?_empty, Option.or_none]

theorem insert_insert (files : Dir) (file : String) (content content' : Bytes) :
    (files.insert file content).insert file content' = files.insert file content' := by
  refine ext_getElem? fun other => ?_
  simp only [getElem?_insert]
  split_ifs <;> rfl

/-- After the copy both places have the staged database. -/
theorem ends_copyFiles (copying : Copying original stagingDir staged ∅ disk) :
    Ends (copyFiles faults (.target "db") staged) disk (fun _ => Copying original stagingDir staged staged)
      (NothingLost original stagingDir staged) := by
  refine Ends.mono (Ends.forM (fun rest disk => ∃ files, Copying original stagingDir staged files disk ∧
    rest.foldl (fun copied entry => copied.insert entry.1 entry.2) files = staged) ?_ ?_) ?_ fun _ => id
  · rintro entry rest disk ⟨files, copying, remain⟩
    have created := copying.putFile entry.1 []
    refine ends_step_bind (ends_step ?_ created.nothingLost) copying.nothingLost
    have written := created.putFile entry.1 entry.2
    rw [insert_insert] at written
    exact ⟨_, written, remain⟩
  · exact ⟨∅, copying, foldl_insert_toList staged⟩
  · rintro _ disk ⟨files, copying, rfl⟩
    exact copying

/-- While the source of the copy is removed, the target has the staged database. -/
theorem ends_removeFiles (installed : Installed original staged disk) :
    Ends (removeFiles faults (.staging stagingDir "db") staged) disk (fun _ => Installed original staged)
      (NothingLost original stagingDir staged) := by
  rw [removeFiles]
  refine Ends.bind (Ends.forM (fun _ => Installed original staged) ?_ installed) ?_
  · rintro entry rest disk installed
    exact ends_step (installed.removeFile entry.1) installed.nothingLost
  · rintro _ disk installed
    exact ends_step installed.remove installed.nothingLost

theorem ends_move (vacated : Vacated original stagingDir name staged disk) (activation : String) :
    Ends (movePathWithCopyFallback faults activation (.staging stagingDir "db") (.target "db")) disk
      (fun _ => Installed original staged) (NothingLost original stagingDir staged) := by
  obtain ⟨placedBy, present⟩ := vacated.staged
  have fits : renames (some (.dir staged placedBy)) (disk (.target "db")) = true := by
    rw [vacated.vacant]
    rfl
  rw [movePathWithCopyFallback]
  refine ends_step_bind (.get_bind ?_) vacated.nothingLost
  simp only [id_eq, present, fits, if_true]
  refine ends_tryStep_bind ?_ ?_ vacated.nothingLost
  · exact .pure (vacated.install activation)
  · rw [copyFallback]
    refine ends_step_bind ?_ vacated.nothingLost
    refine (ends_copyFiles (vacated.createDirectory activation)).bind fun _ disk copying => ?_
    exact ends_removeFiles ⟨copying.toPutAside, copying.copied⟩

theorem ends_copyStagedRuntimeFile {path : String} (other : path ≠ "db") (installed : Installed original staged disk) :
    Ends (copyStagedRuntimeFile faults stagingDir path) disk (fun _ => Installed original staged)
      (NothingLost original stagingDir staged) := by
  rw [copyStagedRuntimeFile]
  refine .get_bind ?_
  split
  · refine ends_step_bind ?_ installed.nothingLost
    exact ends_step (installed.put other _) installed.nothingLost
  · exact .pure installed

theorem ends_copyStagedConfig (installed : Installed original staged disk) :
    Ends (copyStagedConfig faults stagingDir) disk (fun _ => Installed original staged)
      (NothingLost original stagingDir staged) := by
  rw [copyStagedConfig]
  refine .get_bind ?_
  split
  · exact ends_step (installed.put (by decide) _) installed.nothingLost
  · exact .pure installed

variable {call : ActivationCall}

theorem ends_installStaged (vacated : Vacated original call.stagingDir name staged disk)
    (result : RestoreActivationResult) :
    Ends (installStaged formats call result) disk (fun _ => Installed original staged)
      (NothingLost original call.stagingDir staged) := by
  refine (ends_move vacated _).bind fun _ _ installed => ?_
  refine (ends_copyStagedRuntimeFile (by decide) installed).bind fun _ _ installed => ?_
  refine (ends_copyStagedRuntimeFile (by decide) installed).bind fun _ _ installed => ?_
  refine (ends_copyStagedConfig installed).bind fun _ _ installed => ?_
  refine ends_step_bind ?_ installed.nothingLost
  have written : Installed original staged (put (.target ".teleno-restore-manifest.json") _ _) :=
    installed.put (by decide) (.file (formats.manifest result))
  exact ends_step (written.put (by decide) _) written.nothingLost

/-- The directory of a new call does not hold anything. -/
theorem NothingLost.open (held : NothingLost original stagingDir staged disk)
    (whole : Holds disk (.staging stagingDir "db") staged) (absent : disk (.preRestoreDir name) = none) :
    Opened original stagingDir name staged (disk.put (.preRestoreDir name) (.dir ∅ none)) where
  kept item isOriginal := by
    rcases held.kept item isOriginal with present | ⟨name', present⟩
    · exact .inl ((put_other (by simp)).trans present)
    · exact .inr ⟨name', (put_other (by simp)).trans present⟩
  staged := whole.congr (put_other (by simp))
  filed name' path present := by
    by_cases same : name' = name
    · rw [same, put_self]
      rfl
    · rw [put_other (by simp [same])]
      rw [put_other (by simp)] at present
      exact held.filed name' path present
  created := by
    rw [put_self]
    rfl
  free := by
    rw [put_other (by simp)]
    by_contra present
    have exists' := held.filed name "db" (Option.isSome_iff_ne_none.mpr present)
    rw [absent] at exists'
    contradiction

/-- The part of a call up to the move, when the staged database is whole. -/
theorem ends_prepareActivation (held : NothingLost original call.stagingDir staged disk)
    (whole : Holds disk (.staging call.stagingDir "db") staged) :
    Ends (prepareActivation formats call) disk
      (fun result => Vacated original call.stagingDir result.preRestoreDir staged)
      (NothingLost original call.stagingDir staged) := by
  refine .require held fun _ => .get_bind ?_
  refine .require held fun _ => .require held fun _ => ?_
  refine (ends_readStageMetadata held).bind ?_
  rintro metadata _ rfl
  refine .require held fun _ => .require held fun absent => ?_
  refine ends_step_bind (ends_step_bind ?_ held) held
  have opened := held.open whole (Option.isNone_iff_eq_none.mp absent)
  refine Ends.bind ?_ fun _ _ vacated => .pure vacated
  refine (ends_preserve_db opened).bind fun _ _ vacated => ?_
  refine Ends.bind (ends_preserveExistingPaths ?_ ?_ (by decide) vacated) fun _ _ vacated => .pure vacated
  · exact fun path disk other vacated => vacated.rename other
  · exact fun disk vacated => vacated.nothingLost

/-- A call that does not find a directory with the staged database changes nothing. -/
theorem ends_without_directory (absent : (disk (.staging call.stagingDir "db")).any Item.isDirectory = false) :
    Ends (activateStagedRestoreSnapshot formats call) disk (fun _ _ => False) (· = disk) := by
  have refused : Ends (prepareActivation formats call) disk (fun _ _ => False) (· = disk) := by
    refine .require rfl fun _ => .get_bind (.require rfl fun _ => .require rfl fun present => ?_)
    rw [absent] at present
    contradiction
  exact refused.bind fun _ _ impossible => impossible.elim

end Programs

/-- A call finds the staged database whole, or no directory in its place. -/
def StartsWhole (staged : Dir) (call : ActivationCall) (disk : RestoreDisk) : Prop :=
  Holds disk (.staging call.stagingDir "db") staged ∨
    (disk (.staging call.stagingDir "db")).any Item.isDirectory = false

/-- The disk after some calls, however each of them ended. -/
def activations (formats : Formats) (calls : List ActivationCall) (disk : RestoreDisk) : RestoreDisk :=
  calls.foldl (fun disk call => Exec.final (activateStagedRestoreSnapshot formats call disk)) disk

/-- Every call of a sequence starts whole. -/
def EachStartsWhole (formats : Formats) (staged : Dir) : List ActivationCall → RestoreDisk → Prop
  | [], _ => True
  | call :: rest, disk => StartsWhole staged call disk ∧
      EachStartsWhole formats staged rest (Exec.final (activateStagedRestoreSnapshot formats call disk))

section Runs

/-- One call, from a state in which nothing is lost. -/
theorem NothingLost.ends {call : ActivationCall} (held : NothingLost original call.stagingDir staged disk)
    (whole : StartsWhole staged call disk) :
    Ends (activateStagedRestoreSnapshot formats call) disk (fun _ => Installed original staged)
      (NothingLost original call.stagingDir staged) := by
  rcases whole with whole | absent
  · exact (ends_prepareActivation held whole).bind fun result _ vacated =>
      (ends_installStaged vacated result).bind fun _ _ installed => .pure installed
  · refine (ends_without_directory absent).mono (fun _ _ impossible => impossible.elim) ?_
    rintro _ rfl
    exact held

theorem NothingLost.activations {calls : List ActivationCall} (held : NothingLost original stagingDir staged disk)
    (same : ∀ call ∈ calls, call.stagingDir = stagingDir) (whole : EachStartsWhole formats staged calls disk) :
    NothingLost original stagingDir staged (activations formats calls disk) := by
  induction calls generalizing disk with
  | nil => exact held
  | cons call rest ih =>
    obtain ⟨rfl, same⟩ := List.forall_mem_cons.mp same
    refine ih ?_ same whole.2
    exact ((held.ends whole.1).mono (fun _ _ installed => installed.nothingLost) fun _ => id).final

theorem EachStartsWhole.append {earlier : List ActivationCall} {call : ActivationCall}
    (whole : EachStartsWhole formats staged (earlier ++ [call]) disk) :
    EachStartsWhole formats staged earlier disk ∧ StartsWhole staged call (activations formats earlier disk) := by
  induction earlier generalizing disk with
  | nil => exact ⟨trivial, whole.1⟩
  | cons first rest ih =>
    obtain ⟨others, last⟩ := ih whole.2
    exact ⟨⟨whole.1, others⟩, last⟩

end Runs

/-- After the calls nothing is lost, and if the last of them returned, the target has the staged database. -/
structure Secure (formats : Formats) (start : RestoreDisk) (stagingDir : String) (staged : Dir)
    (calls : List ActivationCall) : Prop where
  nothingLost : NothingLost (start (.target "db")) stagingDir staged (activations formats calls start)
  returned : ∀ earlier call result disk, calls = earlier ++ [call] →
    activateStagedRestoreSnapshot formats call (activations formats earlier start) = .ok result disk →
    Holds disk (.target "db") staged

/-- Restore activation never loses a database if each call finds the staged one whole or gone. -/
theorem activations_secure (formats : Formats) (start : RestoreDisk) (filed : Filed start) (stagingDir : String)
    (staged : Dir) (complete : Holds start (.staging stagingDir "db") staged) (calls : List ActivationCall)
    (same : ∀ call ∈ calls, call.stagingDir = stagingDir) (whole : EachStartsWhole formats staged calls start) :
    Secure formats start stagingDir staged calls := by
  have held : NothingLost (start (.target "db")) stagingDir staged start :=
    ⟨fun item isOriginal => .inl isOriginal, .inl complete, filed⟩
  refine ⟨held.activations same whole, ?_⟩
  rintro earlier call result disk rfl ok
  obtain ⟨earlierWhole, lastWhole⟩ := whole.append
  obtain ⟨earlierSame, lastSame⟩ := List.forall_mem_append.mp same
  obtain rfl := lastSame call (List.mem_singleton.mpr rfl)
  exact (((held.activations earlierSame earlierWhole).ends lastWhole).of_ok ok).placed

/-- The rename fails, and the removal after the copy fails at the second file. -/
def cutCall : ActivationCall :=
  { stagingDir := "s", timestamp := "0",
    faults := fun
      | .renameDb => .fails
      | .removeFile "b" => .fails
      | _ => .none }

/-- The node already has a database. -/
def takenDisk : RestoreDisk := sampleDisk.put (.target "db") (.dir (Std.ExtTreeMap.insert ∅ "c" [3]) none)

/-- Neither the rename succeeds nor the copy of the second file. -/
def shortCall : ActivationCall :=
  { cutCall with
    faults := fun
      | .renameDb | .writeFile "b" => .fails
      | _ => .none }

/-- The first call puts the old database aside and installs half of the staged one, the second one all of it. -/
theorem activations_secure_retried : ∃ result disk,
    activateStagedRestoreSnapshot plainFormats plainCall (activations plainFormats [shortCall] takenDisk) =
      .ok result disk ∧
    Holds disk (.target "db") sampleDb ∧ Kept (.dir (Std.ExtTreeMap.insert ∅ "c" [3]) none) disk := by
  have filed : Filed takenDisk := fun _ _ present => absurd present (by simp [takenDisk, Disk.put, sampleDisk])
  have complete : Holds takenDisk (.staging "s" "db") sampleDb := ⟨none, rfl⟩
  have still : Holds (activations plainFormats [shortCall] takenDisk) (.staging "s" "db") sampleDb := ⟨none, rfl⟩
  have secure := activations_secure plainFormats takenDisk filed "s" sampleDb complete [shortCall, plainCall]
    (by simp [shortCall, cutCall, plainCall]) ⟨.inl complete, .inl still, trivial⟩
  have runs : ¬ Exec.Throws (fun _ => True) (activateStagedRestoreSnapshot plainFormats plainCall)
      (activations plainFormats [shortCall] takenDisk) := by decide +kernel
  obtain ⟨result, disk, ok⟩ := Exec.exists_ok_of_not_throws runs
  have last : activations plainFormats [shortCall, plainCall] takenDisk = disk := congrArg Exec.final ok
  exact ⟨result, disk, ok, secure.returned [shortCall] plainCall result disk rfl ok,
    last ▸ secure.nothingLost.kept _ rfl⟩

/-- The content of a file in a directory. -/
def readFile (disk : RestoreDisk) (place : Place) (name : String) : Option Bytes :=
  match disk place with
  | some (.dir files _) => files[name]?
  | _ => none

theorem Holds.readFile {disk : RestoreDisk} {place : Place} {files : Dir} (held : Holds disk place files)
    (name : String) : readFile disk place name = files[name]? := by
  obtain ⟨placedBy, present⟩ := held
  rw [Backup.readFile, present]

/-- The second call puts the complete database aside, installs the half removed one and returns. -/
theorem half_removed_installed : ∃ result disk,
    activateStagedRestoreSnapshot plainFormats plainCall (activations plainFormats [cutCall] sampleDisk) =
      .ok result disk ∧
    ¬ Holds disk (.target "db") sampleDb ∧ ¬ Available "s" sampleDb disk ∧
    ¬ Secure plainFormats sampleDisk "s" sampleDb [cutCall, plainCall] := by
  have present : sampleDb["a"]? = some [1] := by decide +kernel
  have lacks {disk : RestoreDisk} {place : Place} (absent : readFile disk place "a" = none) :
      ¬ Holds disk place sampleDb := by
    intro held
    rw [held.readFile, present] at absent
    contradiction
  have gone : readFile (activations plainFormats [cutCall, plainCall] sampleDisk) (.target "db") "a" = none ∧
      readFile (activations plainFormats [cutCall, plainCall] sampleDisk) (.staging "s" "db") "a" = none := by
    decide +kernel
  have runs : ¬ Exec.Throws (fun _ => True) (activateStagedRestoreSnapshot plainFormats plainCall)
      (activations plainFormats [cutCall] sampleDisk) := by decide +kernel
  obtain ⟨result, disk, ok⟩ := Exec.exists_ok_of_not_throws runs
  have last : activations plainFormats [cutCall, plainCall] sampleDisk = disk := congrArg Exec.final ok
  rw [last] at gone
  have lost : ¬ Available "s" sampleDb disk := not_or.mpr ⟨lacks gone.2, lacks gone.1⟩
  exact ⟨result, disk, ok, lacks gone.1, lost, fun secure => lost (last ▸ secure.nothingLost.available)⟩

end Teleno.Backup
