import Teleno.Backup.RestoreStartup

/-! # A restored database is observed before it produces

The restore marker, the hold and the records of earlier starts carry the guarantee: as long as the database that an
activation placed is at the target, the marker is there, or a start has run as an observer since and the hold is there
or was released by a start that enabled the producer. A cut between the arrival of the restored database and the
marker, or after the policy has removed the marker or the hold, breaks this.
-/

namespace Teleno.Backup

open Library List Disk

/-- The activation whose database is at the target. -/
def placedBy (disk : RestoreDisk) : Option String :=
  match disk (.target "db") with
  | some (.dir _ activation) => activation
  | _ => none

/-- A start that has ended: whether the producer was activated explicitly, whether the policy ran to its end and left
the block producer enabled, and the activation whose database was at the target. -/
structure Start where
  explicit : Bool
  outcome : Option Bool
  activation : Option String
deriving DecidableEq

/-- An activation from the command line, or a start of the node. -/
inductive RestoreEvent where
  | activate (call : ActivationCall)
  | start (startup : Startup)

/-- The starts so far and the disk. -/
structure Node where
  starts : List Start
  disk : RestoreDisk

def Node.next (formats : Formats) (node : Node) : RestoreEvent → Node
  | .activate call => { node with disk := Exec.final (activateStagedRestoreSnapshot formats call node.disk) }
  | .start startup =>
    let ended := startNode formats startup node.disk
    let start : Start :=
      { explicit := startup.explicitProducerActivation, outcome := (Exec.value ended).map NodeConfig.blockProducer,
        activation := placedBy (Exec.final ended) }
    { starts := node.starts ++ [start], disk := Exec.final ended }

/-- The node after some events. -/
def Node.run (formats : Formats) (node : Node) (events : List RestoreEvent) : Node :=
  events.foldl (Node.next formats) node

/-- Some start has run the policy to its end, with this outcome, over the database of this activation. -/
def Ran (outcome : Bool) (activation : String) (starts : List Start) : Prop :=
  ∃ start ∈ starts, start.outcome = some outcome ∧ start.activation = some activation

/-- A start that leaves the block producer enabled over a restored database comes after an observer run over it, and
the first such start was activated explicitly. -/
def Observed (earlier : List Start) (start : Start) : Prop :=
  ∀ activation, start.outcome = some true → start.activation = some activation →
    Ran false activation earlier ∧ (start.explicit ∨ Ran true activation earlier)

/-- Every start is observed by the ones before it. -/
def ObserverFirst (starts : List Start) : Prop :=
  ∀ earlier start later, starts = earlier ++ start :: later → Observed earlier start

/-- Nothing happens to an activation between the arrival of the restored database and the marker. -/
structure Marked (faults : ActivationStep → Fault) : Prop where
  createFile : ∀ name, faults (.createFile name) = .none
  writeFile : ∀ name, faults (.writeFile name) = .none
  removeFile : ∀ name, faults (.removeFile name) = .none
  removeDb : faults .removeDb = .none
  createRuntimeParent : ∀ path, faults (.createRuntimeParent path) = .none
  copyRuntime : ∀ path, faults (.copyRuntime path) = .none
  copyConfig : faults .copyConfig = .none
  writeManifest : faults .writeManifest = .none
  writeMarker : faults .writeMarker = .none

/-- Nothing happens to an event after it has let the restored database arrive or has removed the marker or the hold,
and a start that activates the producer explicitly does enable it. -/
def Undisturbed : RestoreEvent → Prop
  | .activate call => Marked call.faults
  | .start startup => Marked startup.activationFaults ∧ startup.policyFaults .syncRemoved = .none ∧
      startup.policyFaults .syncReleased = .none ∧
      (startup.explicitProducerActivation = true → startup.config.blockProducer = true)

/-- The marker is there, or the restored database was observed and the hold is there or was released. -/
def Guarded (starts : List Start) (disk : RestoreDisk) : Prop :=
  ∀ activation, placedBy disk = some activation → (disk (.target markerPath)).isSome ∨
    Ran false activation starts ∧ ((disk (.target holdPath)).isSome ∨ Ran true activation starts)

variable {starts : List Start} {disk : RestoreDisk} {formats : Formats}

section Guards

variable {disk' : RestoreDisk}

theorem Ran.append {outcome : Bool} {activation : String} (ran : Ran outcome activation starts) (start : Start) :
    Ran outcome activation (starts ++ [start]) := by
  obtain ⟨earlier, mem, same⟩ := ran
  exact ⟨earlier, mem_append_left _ mem, same⟩

theorem Guarded.append (guarded : Guarded starts disk) (start : Start) : Guarded (starts ++ [start]) disk := by
  intro activation placed
  rcases guarded activation placed with marker | ⟨observed, released⟩
  · exact .inl marker
  · exact .inr ⟨observed.append start, released.imp_right fun ran => ran.append start⟩

theorem guarded_of_vacant (vacant : disk (.target "db") = none) : Guarded starts disk := by
  intro activation placed
  rw [placedBy, vacant] at placed
  contradiction

theorem guarded_of_marker (marker : (disk (.target markerPath)).isSome) : Guarded starts disk :=
  fun _ _ => .inl marker

/-- Only the database, the marker and the hold matter. -/
theorem Guarded.congr (guarded : Guarded starts disk) (db : disk' (.target "db") = disk (.target "db"))
    (marker : disk' (.target markerPath) = disk (.target markerPath))
    (hold : disk' (.target holdPath) = disk (.target holdPath)) : Guarded starts disk' := by
  intro activation placed
  rw [marker, hold]
  rw [placedBy, db] at placed
  exact guarded activation placed

end Guards

section Programs

variable {faults : ActivationStep → Fault} {name : String}

theorem ends_preserve_database (guarded : Guarded starts disk) :
    Ends (preserveExistingPath faults name "db") disk (fun _ disk => disk (.target "db") = none) (Guarded starts) := by
  rw [preserveExistingPath]
  refine .get_bind ?_
  split_ifs with vacant
  · exact .pure (Option.isNone_iff_eq_none.mp vacant)
  · refine ends_step_bind ?_ guarded
    exact ends_step_bind (.pure rename_source) guarded

section

variable (marked : Marked faults)

include marked

theorem ends_copyFiles_marked (destination : Place) (files : Dir) :
    Ends (copyFiles faults destination files) disk (fun _ _ => True) (Guarded starts) := by
  refine Ends.forM (fun _ _ => True) (fun entry _ disk _ => ?_) trivial
  refine ends_step_none_bind (marked.createFile entry.1) ?_
  exact ends_step_none (marked.writeFile entry.1) trivial

theorem ends_removeFiles_marked (source : Place) (files : Dir) :
    Ends (removeFiles faults source files) disk (fun _ _ => True) (Guarded starts) := by
  refine Ends.bind (Ends.forM (fun _ _ => True) (fun entry _ disk _ => ?_) trivial) fun _ disk _ => ?_
  · exact ends_step_none (marked.removeFile entry.1) trivial
  · exact ends_step_none marked.removeDb trivial

theorem ends_copyFallback_marked (vacant : disk (.target "db") = none) (activation : String) (source : Place)
    (item : Option Item) :
    Ends (copyFallback faults activation source (.target "db") item) disk (fun _ _ => True) (Guarded starts) := by
  rcases item with _ | content | ⟨files, placed⟩
  · exact .throw (guarded_of_vacant vacant)
  · exact ends_step_none_bind (marked.writeFile "") (ends_step_none marked.removeDb trivial)
  · refine ends_step_bind ?_ (guarded_of_vacant vacant)
    exact (ends_copyFiles_marked marked _ files).bind fun _ _ _ => ends_removeFiles_marked marked source files

/-- An activation stops before the restored database arrives, or goes on. -/
theorem ends_move_marked (vacant : disk (.target "db") = none) (activation : String)
    (source : Place) : Ends (movePathWithCopyFallback faults activation source (.target "db")) disk
      (fun _ _ => True) (Guarded starts) := by
  have guarded : Guarded starts disk := guarded_of_vacant vacant
  have fallback : Ends (copyFallback faults activation source (.target "db") (disk source)) disk (fun _ _ => True)
      (Guarded starts) := ends_copyFallback_marked marked vacant activation source _
  rw [movePathWithCopyFallback]
  refine ends_step_bind (.get_bind ?_) guarded
  split_ifs
  · exact ends_tryStep_bind (.pure trivial) fallback guarded
  · exact fallback

theorem ends_copyRuntime_marked (stagingDir path : String) :
    Ends (copyStagedRuntimeFile faults stagingDir path) disk (fun _ _ => True) (Guarded starts) := by
  rw [copyStagedRuntimeFile]
  refine .get_bind ?_
  split
  · refine ends_step_none_bind (marked.createRuntimeParent path) ?_
    exact ends_step_none (marked.copyRuntime path) trivial
  · exact .pure trivial

theorem ends_copyConfig_marked (stagingDir : String) :
    Ends (copyStagedConfig faults stagingDir) disk (fun _ _ => True) (Guarded starts) := by
  rw [copyStagedConfig]
  refine .get_bind ?_
  split
  · exact ends_step_none marked.copyConfig trivial
  · exact .pure trivial

end

variable {call : ActivationCall}

/-- An activation that gets past the arrival of the restored database writes the marker. -/
theorem ends_installStaged_marked (marked : Marked call.faults) (vacant : disk (.target "db") = none)
    (result : RestoreActivationResult) :
    Ends (installStaged formats call result) disk (fun _ => Guarded starts) (Guarded starts) := by
  refine (ends_move_marked marked vacant _ _).bind fun _ _ _ => ?_
  refine (ends_copyRuntime_marked marked _ _).bind fun _ _ _ => ?_
  refine (ends_copyRuntime_marked marked _ _).bind fun _ _ _ => ?_
  refine (ends_copyConfig_marked marked _).bind fun _ _ _ => ?_
  refine ends_step_none_bind marked.writeManifest (ends_step_none marked.writeMarker ?_)
  refine guarded_of_marker ?_
  rw [put_self]
  rfl

theorem ends_prepare_guarded (guarded : Guarded starts disk) :
    Ends (prepareActivation formats call) disk (fun _ disk => disk (.target "db") = none) (Guarded starts) := by
  refine .require guarded fun _ => .get_bind ?_
  refine .require guarded fun _ => .require guarded fun _ => ?_
  refine (ends_readStageMetadata guarded).bind ?_
  rintro metadata disk rfl
  refine .require guarded fun _ => .require guarded fun _ => ?_
  refine ends_step_bind (ends_step_bind ?_ guarded) guarded
  have created : Guarded starts (disk.put (.preRestoreDir (call.timestamp ++ "-" ++ safePathFragment metadata.backupId))
      (.dir ∅ none)) :=
    guarded.congr (put_other (by simp)) (put_other (by simp)) (put_other (by simp))
  refine Ends.bind ?_ fun _ _ vacant => .pure vacant
  refine (ends_preserve_database created).bind fun _ _ vacant => ?_
  refine Ends.bind (ends_preserveExistingPaths ?_ (fun _ => guarded_of_vacant) (by decide) vacant)
    fun _ _ vacant => .pure vacant
  exact fun path disk other vacant => (rename_other (by simp [other.symm]) (by simp)).trans vacant

theorem ends_activate_guarded (marked : Marked call.faults) (guarded : Guarded starts disk) :
    Ends (activateStagedRestoreSnapshot formats call) disk (fun _ => Guarded starts) (Guarded starts) :=
  (ends_prepare_guarded guarded).bind fun result _ vacant =>
    (ends_installStaged_marked marked vacant result).bind fun _ _ guarded => .pure guarded

variable {startup : Startup}

theorem ends_readPending (guarded : Guarded starts disk) :
    Ends (readPendingRestoreActivationRequest formats) disk (fun _ => Guarded starts) (Guarded starts) := by
  rw [readPendingRestoreActivationRequest]
  refine .get_bind ?_
  split
  · exact .pure guarded
  · exact .throw guarded
  · split
    · exact .throw guarded
    · refine .require guarded fun _ => .require guarded fun _ => .require guarded fun _ => .require guarded fun _ => ?_
      exact .require guarded fun _ => .pure guarded

theorem ends_activatePending (marked : Marked startup.activationFaults) (guarded : Guarded starts disk) :
    Ends (activatePendingRestoreActivationRequest formats startup) disk (fun _ => Guarded starts) (Guarded starts) := by
  refine (ends_readPending guarded).bind fun intent disk guarded => ?_
  cases intent with
  | none => exact .pure guarded
  | some intent =>
    refine (ends_activate_guarded marked guarded).bind fun _ disk guarded => ?_
    refine ends_step ?_ guarded
    exact guarded.congr (remove_other (by decide)) (remove_other (by decide)) (remove_other (by decide))

theorem Guarded.openOrCreate (guarded : Guarded starts disk) : Guarded starts (openOrCreate disk) := by
  rw [Backup.openOrCreate]
  split
  · intro activation placed
    rw [placedBy, put_self] at placed
    contradiction
  · exact guarded

/-- A start that ran the policy to its end and left this configuration. -/
def ranTo (explicit : Bool) (config : NodeConfig) (disk : RestoreDisk) : Start :=
  { explicit := explicit, outcome := some config.blockProducer, activation := placedBy disk }

/-- What holds after such a start. -/
structure Passes (starts : List Start) (explicit : Bool) (config : NodeConfig) (disk : RestoreDisk) : Prop where
  observed : Observed starts (ranTo explicit config disk)
  guarded : Guarded (starts ++ [ranTo explicit config disk]) disk

variable {explicit : Bool} {config : NodeConfig}

theorem ran_ranTo {activation : String} (placed : placedBy disk = some activation) :
    Ran config.blockProducer activation (starts ++ [ranTo explicit config disk]) :=
  ⟨_, mem_append_right _ (mem_singleton.mpr rfl), rfl, placed⟩

/-- A start as an observer, under the hold. -/
theorem passes_observer (disabled : config.blockProducer = false)
    (hold : (disk (.target holdPath)).isSome) : Passes starts explicit config disk where
  observed activation enabled := by
    have off : some config.blockProducer = some true := enabled
    rw [disabled] at off
    contradiction
  guarded activation placed := by
    have ran : Ran config.blockProducer activation (starts ++ [ranTo explicit config disk]) := ran_ranTo placed
    rw [disabled] at ran
    exact .inr ⟨ran, .inl hold⟩

/-- A start without a marker, after which the hold is gone. -/
theorem passes_producer (ran : ∀ activation, placedBy disk = some activation → Ran false activation starts ∧
      (explicit = true ∧ config.blockProducer = true ∨ Ran true activation starts)) :
    Passes starts explicit config disk where
  observed activation enabled placed := by
    obtain ⟨observer, released⟩ := ran activation placed
    exact ⟨observer, released.imp_left And.left⟩
  guarded activation placed := by
    obtain ⟨observer, released⟩ := ran activation placed
    refine .inr ⟨observer.append _, .inr ?_⟩
    rcases released with ⟨-, enabled⟩ | earlier
    · have now : Ran config.blockProducer activation (starts ++ [ranTo explicit config disk]) := ran_ranTo placed
      rwa [enabled] at now
    · exact earlier.append _

theorem ends_policy {faults : PolicyStep → Fault} (removed : faults .syncRemoved = .none)
    (released : faults .syncReleased = .none) (enables : explicit = true → config.blockProducer = true)
    (guarded : Guarded starts disk) :
    Ends (applyRestoreStartupPolicy faults config explicit) disk
      (fun policy => Passes starts explicit policy.2) (Guarded starts) := by
  rw [applyRestoreStartupPolicy]
  refine .get_bind ?_
  dsimp only
  split_ifs with marker both hold
  · have held (item : Item) : Guarded starts (disk.put (.target holdPath) item) :=
      guarded_of_marker ((congrArg Option.isSome (put_other (by decide))).trans marker)
    refine ends_step_bind (ends_step_bind (ends_step_bind (ends_step_bind ?_ (held _)) (held _)) (held _)) guarded
    refine ends_step_none_bind removed (.pure (passes_observer rfl ?_))
    exact congrArg Option.isSome ((remove_other (by decide)).trans put_self)
  · obtain ⟨hold, isExplicit⟩ := Bool.and_eq_true_iff.mp both
    refine ends_step_bind (ends_step_none_bind released (.pure (passes_producer fun activation placed => ?_))) guarded
    have same : placedBy (disk.remove (.target holdPath)) = placedBy disk := by
      rw [placedBy, placedBy, remove_other (by decide)]
    obtain ⟨observer, -⟩ := (guarded activation (same.symm.trans placed)).resolve_left marker
    exact ⟨observer, .inl ⟨isExplicit, enables isExplicit⟩⟩
  · exact .pure (passes_observer rfl hold)
  · refine .pure (passes_producer fun activation placed => ?_)
    obtain ⟨observer, released⟩ := (guarded activation placed).resolve_left marker
    exact ⟨observer, .inr (released.resolve_left hold)⟩

end Programs

section Runs

theorem ends_startNode {startup : Startup} (undisturbed : Undisturbed (.start startup))
    (guarded : Guarded starts disk) :
    Ends (startNode formats startup) disk (Passes starts startup.explicitProducerActivation) (Guarded starts) := by
  obtain ⟨marked, removed, released, enables⟩ := undisturbed
  refine (ends_activatePending marked guarded).bind fun _ disk guarded => ?_
  refine ends_step_bind ?_ guarded
  exact (ends_policy removed released enables guarded.openOrCreate).bind fun _ _ passes => .pure passes

/-- What every node of an undisturbed run keeps. -/
structure Node.Sound (node : Node) : Prop where
  observerFirst : ObserverFirst node.starts
  guarded : Guarded node.starts node.disk

theorem ObserverFirst.append (first : ObserverFirst starts) {start : Start} (observed : Observed starts start) :
    ObserverFirst (starts ++ [start]) := by
  intro earlier other later split
  rcases eq_nil_or_concat later with rfl | ⟨others, last, rfl⟩
  · obtain ⟨rfl, same⟩ := append_inj' split rfl
    exact singleton_inj.mp same ▸ observed
  · rw [concat_eq_append, ← cons_append, ← append_assoc] at split
    exact first earlier other others (append_inj' split rfl).1

theorem Node.Sound.next {node : Node} (sound : node.Sound) {event : RestoreEvent} (undisturbed : Undisturbed event) :
    (node.next formats event).Sound := by
  cases event with
  | activate call =>
    have ends : Ends (activateStagedRestoreSnapshot formats call) node.disk _ _ :=
      ends_activate_guarded undisturbed sound.guarded
    exact ⟨sound.observerFirst, ends.final⟩
  | start startup =>
    have ends : Ends (startNode formats startup) node.disk _ _ := ends_startNode undisturbed sound.guarded
    cases outcome : startNode formats startup node.disk with
    | ok config disk =>
      have passes := ends.of_ok outcome
      rw [Node.next, outcome]
      exact ⟨sound.observerFirst.append passes.observed, passes.guarded⟩
    | error e disk =>
      have guarded := ends.of_error outcome
      rw [Node.next, outcome]
      refine ⟨sound.observerFirst.append fun _ enabled => ?_, guarded.append _⟩
      contradiction

end Runs

/-- In every undisturbed run a restored database is observed before a start leaves the block producer enabled. -/
theorem restored_observed_first (formats : Formats) (disk : RestoreDisk) (own : placedBy disk = none)
    (events : List RestoreEvent) (undisturbed : ∀ event ∈ events, Undisturbed event) :
    ObserverFirst (Node.run formats ⟨[], disk⟩ events).starts := by
  have run {node : Node} (sound : node.Sound) {events : List RestoreEvent}
      (undisturbed : ∀ event ∈ events, Undisturbed event) : (Node.run formats node events).Sound := by
    induction events generalizing node with
    | nil => exact sound
    | cons event rest ih =>
      obtain ⟨first, others⟩ := forall_mem_cons.mp undisturbed
      exact ih (sound.next first) others
  have start : Node.Sound ⟨[], disk⟩ := by
    refine ⟨fun earlier _ _ split => ?_, fun activation placed => ?_⟩
    · cases earlier <;> contradiction
    · rw [own] at placed
      contradiction
  exact (run start undisturbed).observerFirst

/-- A start with the block producer in the configuration. -/
def producerStart : Startup := { config := { blockProducer := true } }

/-- The restored node starts as an observer, and then with explicit activation. -/
def plainRun : List RestoreEvent :=
  [.activate plainCall, .start producerStart, .start { producerStart with explicitProducerActivation := true }]

theorem restored_observed_first_plain : placedBy sampleDisk = none ∧ (∀ event ∈ plainRun, Undisturbed event) ∧
    (Node.run plainFormats ⟨[], sampleDisk⟩ plainRun).starts =
      [⟨false, some false, some "1-b"⟩, ⟨true, some true, some "1-b"⟩] ∧
    ObserverFirst (Node.run plainFormats ⟨[], sampleDisk⟩ plainRun).starts := by
  have marked : Marked fun _ => .none :=
    ⟨fun _ => rfl, fun _ => rfl, fun _ => rfl, rfl, fun _ => rfl, fun _ => rfl, rfl, rfl, rfl⟩
  have undisturbed : ∀ event ∈ plainRun, Undisturbed event := by
    refine forall_mem_cons.mpr ⟨marked, forall_mem_cons.mpr ⟨?_, forall_mem_singleton.mpr ?_⟩⟩
    · exact ⟨marked, rfl, rfl, fun _ => rfl⟩
    · exact ⟨marked, rfl, rfl, fun _ => rfl⟩
  exact ⟨rfl, undisturbed, by decide +kernel, restored_observed_first plainFormats sampleDisk rfl plainRun undisturbed⟩

/-- The process stops before the activation writes the marker. -/
def unmarkedRun : List RestoreEvent :=
  [.activate { plainCall with faults := fun
      | .writeMarker => .stops
      | _ => .none }, .start producerStart]

/-- The first start stops after it has removed the marker, and the second one is activated explicitly. -/
def unobservedRun : List RestoreEvent :=
  [.activate plainCall,
    .start { producerStart with policyFaults := fun
      | .syncRemoved => .stops
      | _ => .none },
    .start { producerStart with explicitProducerActivation := true }]

/-- In both runs the only start that ends leaves the block producer enabled over the restored database. -/
theorem unobserved_producers :
    (Node.run plainFormats ⟨[], sampleDisk⟩ unmarkedRun).starts = [⟨false, some true, some "1-b"⟩] ∧
    ¬ ObserverFirst (Node.run plainFormats ⟨[], sampleDisk⟩ unmarkedRun).starts ∧
    (Node.run plainFormats ⟨[], sampleDisk⟩ unobservedRun).starts =
      [⟨false, none, some "1-b"⟩, ⟨true, some true, some "1-b"⟩] ∧
    ¬ ObserverFirst (Node.run plainFormats ⟨[], sampleDisk⟩ unobservedRun).starts := by
  have first : (Node.run plainFormats ⟨[], sampleDisk⟩ unmarkedRun).starts = [⟨false, some true, some "1-b"⟩] := by
    decide +kernel
  have second : (Node.run plainFormats ⟨[], sampleDisk⟩ unobservedRun).starts =
      [⟨false, none, some "1-b"⟩, ⟨true, some true, some "1-b"⟩] := by
    decide +kernel
  refine ⟨first, ?_, second, ?_⟩
  · rw [first]
    intro observerFirst
    obtain ⟨⟨start, mem, -⟩, -⟩ := observerFirst [] _ [] rfl "1-b" rfl rfl
    exact not_mem_nil mem
  · rw [second]
    intro observerFirst
    obtain ⟨⟨start, mem, ran, -⟩, -⟩ := observerFirst [_] _ [] rfl "1-b" rfl rfl
    rw [mem_singleton.mp mem] at ran
    contradiction

end Teleno.Backup
