import Teleno.Backup.OperationWorker

/-! # One backup worker at a time

Between its acceptance and the exit of its thread an operation is the only one, and `_running`, `_worker_active` and
`_worker` follow from how far it is, provided that it was accepted when nothing was left of the operation before: the
thread had cleared `_worker_active`, it had been joined, and no other start was still assigning its thread or clearing
the flag after a failure. The service does not check this, and an operation that is accepted earlier than that can
replace a joinable thread or run with the flag cleared.
-/

namespace Teleno.Backup

open Library BackupService Function

/-- The operation that a call is launching, and how far it is. -/
def CallerState.launch? : CallerState → Option (ℕ × Launch)
  | launching operation stage => some (operation, stage)
  | _ => none

/-- `_worker_active` has been set for the operation and its thread does not exist yet. -/
def Launch.isMarked : Launch → Bool
  | creating => true
  | failing => true
  | unmarking => true
  | _ => false

/-- The operation is counted as running and its thread does not exist yet. -/
def Launch.isRunning : Launch → Bool
  | marking => true
  | creating => true
  | failing => true
  | _ => false

namespace WorkerState

def isAlive : WorkerState → Bool
  | ready => true
  | executing => true
  | clearing => true
  | _ => false

def isRunning : WorkerState → Bool
  | ready => true
  | executing => true
  | _ => false

def hasBegun : WorkerState → Bool
  | executing => true
  | clearing => true
  | exited => true
  | _ => false

end WorkerState

/-- The stage of a launch and the state of its operation belong together. -/
def Launch.fits (state : WorkerState) : Launch → Bool
  | marking => state = .preparing
  | creating => state = .preparing
  | assigning => state.isAlive || state = .exited
  | failing => state = .refused
  | unmarking => state = .refused

variable {s s' : BackupService} {c n : ℕ} {state : CallerState} {launching : Option (ℕ × ℕ × Launch)} {live : Option ℕ}
  {choice : Bool}

namespace BackupService

def launch (s : BackupService) (c : ℕ) : Option (ℕ × Launch) := (s.callers c).launch?

theorem launch_eq_some_iff {stage : Launch} : s.launch c = some (n, stage) ↔ s.callers c = .launching n stage := by
  rw [launch]
  cases s.callers c <;> simp [CallerState.launch?]

theorem step_caller {choice : Bool} (alive : s.terminated = false) :
    s.step (.caller c choice) = s.advance c choice := by
  simp [step, alive]

theorem step_worker {succeeded : Bool} (alive : s.terminated = false) :
    s.step (.worker n succeeded) = s.work n succeeded := by
  simp [step, alive]

theorem launch_setCaller : (s.setCaller c state).launch = update s.launch c state.launch? := by
  funext c'
  by_cases same : c' = c
  · subst same
    simp [launch, setCaller]
  · simp [launch, setCaller, same]

end BackupService

/-- At most one operation is on its way: a call that launches it, a thread that runs it, or both. The flags follow
from them. -/
structure Phase (launching : Option (ℕ × ℕ × Launch)) (live : Option ℕ) (s : BackupService) : Prop where
  alive : s.terminated = false
  launch : ∀ c l, s.launch c = some l ↔ launching = some (c, l)
  threads : ∀ n, (s.workers n).isAlive = true ↔ live = some n
  own : ∀ c n stage m, launching = some (c, n, stage) → live = some m → n = m ∧ stage = .assigning
  free : launching.isSome → s.worker = none
  fits : ∀ c n stage, launching = some (c, n, stage) → stage.fits (s.workers n) = true
  prepared : ∀ n, s.workers n = .preparing → ∃ c stage, launching = some (c, n, stage)
  active : s.workerActive = (launching.any (fun l => l.2.2.isMarked) || live.isSome)
  running : s.running = (launching.any (fun l => l.2.2.isRunning) || live.any fun n => (s.workers n).isRunning)
  accepted : ∀ n, s.workers n = .unaccepted ↔ s.accepted ≤ n
  bodies : ∀ n, s.bodies.count n = if (s.workers n).hasBegun then 1 else 0

def Exclusive (s : BackupService) : Prop := ∃ launching live, Phase launching live s

section Update

/-- The only call that launches an operation moves on. -/
theorem launch_update {launch : ℕ → Option (ℕ × Launch)} (known : ∀ c l, launch c = some l ↔ launching = some (c, l))
    (mine : ∀ c' l, launching = some (c', l) → c' = c) (next : Option (ℕ × Launch)) (c' : ℕ) (l : ℕ × Launch) :
    update launch c next c' = some l ↔ next.map (fun l => (c, l)) = some (c', l) := by
  by_cases same : c' = c
  · subst same
    simp
  · have other : launch c' ≠ some l := fun launched => same (mine c' l ((known c' l).mp launched))
    simp [same, other, Ne.symm same]

variable {workers : ℕ → WorkerState}

/-- The only live thread moves on. -/
theorem threads_update (known : ∀ m, (workers m).isAlive = true ↔ live = some m)
    (mine : ∀ m, live = some m → m = n) (next : WorkerState) (m : ℕ) :
    (update workers n next m).isAlive = true ↔ (if next.isAlive then some n else none) = some m := by
  by_cases same : m = n
  · subst same
    simp
  · have other : ¬ (workers m).isAlive = true := fun lives => same (mine m ((known m).mp lives))
    simp [same, other, Ne.symm same]

theorem accepted_update {accepted : ℕ}
    (known : ∀ m, workers m = .unaccepted ↔ accepted ≤ m) (was : workers n ≠ .unaccepted) {next : WorkerState}
    (now : next ≠ .unaccepted) (m : ℕ) : update workers n next m = .unaccepted ↔ accepted ≤ m := by
  by_cases same : m = n
  · subst same
    rw [update_self, ← known m]
    exact iff_of_false now was
  · rw [update_of_ne same]
    exact known m

/-- Only what is being launched is being prepared. -/
theorem prepared_update {launching : Option (ℕ × ℕ × Launch)}
    (others : ∀ m ≠ n, workers m = .preparing → ∃ c stage, launching = some (c, m, stage)) {next : WorkerState}
    (now : next = .preparing → ∃ c stage, launching = some (c, n, stage)) (m : ℕ)
    (preparing : update workers n next m = .preparing) : ∃ c stage, launching = some (c, m, stage) := by
  by_cases same : m = n
  · subst same
    rw [update_self] at preparing
    exact now preparing
  · rw [update_of_ne same] at preparing
    exact others m same preparing

/-- The count of begun bodies stands while no body begins. -/
theorem bodies_update {bodies : List ℕ}
    (known : ∀ m, bodies.count m = if (workers m).hasBegun then 1 else 0) {next : WorkerState}
    (keeps : next.hasBegun = (workers n).hasBegun) (m : ℕ) :
    bodies.count m = if (update workers n next m).hasBegun then 1 else 0 := by
  by_cases same : m = n
  · subst same
    rw [update_self, keeps]
    exact known m
  · rw [update_of_ne same]
    exact known m

end Update

section Steps

attribute [local simp] setWorker setCaller Launch.fits Launch.isRunning WorkerState.isAlive WorkerState.isRunning

theorem phase_initial : Phase none none {} := by
  constructor <;> simp [launch, CallerState.launch?, WorkerState.hasBegun]

/-- Steps that touch neither a launch nor a worker thread. -/
theorem Phase.of_frame (phase : Phase launching live s) (launch : s'.launch = s.launch)
    (workers : s'.workers = s.workers) (running : s'.running = s.running) (active : s'.workerActive = s.workerActive)
    (worker : s'.worker = s.worker ∨ s'.worker = none) (accepted : s'.accepted = s.accepted)
    (bodies : s'.bodies = s.bodies) (alive : s'.terminated = s.terminated) : Phase launching live s' where
  alive := by rw [alive]; exact phase.alive
  launch := by rw [launch]; exact phase.launch
  threads := by rw [workers]; exact phase.threads
  own := phase.own
  free launched := by
    rcases worker with same | none
    · rw [same]
      exact phase.free launched
    · exact none
  fits := by rw [workers]; exact phase.fits
  prepared := by rw [workers]; exact phase.prepared
  active := by rw [active]; exact phase.active
  running := by rw [running, workers]; exact phase.running
  accepted := by rw [workers, accepted]; exact phase.accepted
  bodies := by rw [workers, bodies]; exact phase.bodies

/-- Before its thread is created, an operation is alone. -/
theorem Phase.live_eq_none {stage : Launch} (phase : Phase (some (c, n, stage)) live s) (early : stage ≠ .assigning) :
    live = none := by
  cases live with
  | none => rfl
  | some m => exact absurd (phase.own _ _ _ m rfl rfl).2 early

theorem Phase.not_preparing {stage : Launch} (phase : Phase (some (c, n, stage)) live s)
    (later : stage.fits .preparing = false) (m : ℕ) : s.workers m ≠ .preparing := by
  intro preparing
  obtain ⟨_, _, ⟨⟩⟩ := phase.prepared m preparing
  have fits := phase.fits _ _ _ rfl
  rw [preparing, later] at fits
  contradiction

theorem Phase.launch_setCaller {l : ℕ × Launch} (phase : Phase (some (c, l)) live s) (state : CallerState) (c' : ℕ)
    (l' : ℕ × Launch) :
    (s.setCaller c state).launch c' = some l' ↔ state.launch?.map (fun l => (c, l)) = some (c', l') := by
  rw [BackupService.launch_setCaller]
  refine launch_update phase.launch ?_ _ c' l'
  rintro _ _ ⟨⟩
  rfl

/-- An operation is accepted while nothing of an earlier one is left. -/
theorem Phase.begin (phase : Phase none none s) (free : s.worker = none) {kind : OperationKind} :
    Phase (some (c, s.accepted, .marking)) none
      { (s.setCaller c (.launching s.accepted .marking)).setWorker s.accepted .preparing with
        running := true
        status := { operationKind := some kind, state := .running }
        accepted := s.accepted + 1 } where
  alive := phase.alive
  launch := by
    change ∀ c' l, (s.setCaller c (.launching s.accepted .marking)).launch c' = some l ↔ _
    rw [BackupService.launch_setCaller]
    exact launch_update phase.launch (by simp) _
  threads := threads_update phase.threads (by simp) _
  own := by simp
  free _ := free
  fits := by
    rintro _ _ _ ⟨⟩
    simp
  prepared := prepared_update (fun m _ preparing => absurd (phase.prepared m preparing) (by simp))
    fun _ => ⟨c, .marking, rfl⟩
  active := phase.active
  running := rfl
  accepted m := by
    have known := phase.accepted m
    by_cases same : m = s.accepted
    · subst same
      simp
    · simp only [setWorker, setCaller, update_of_ne same, known]
      omega
  bodies m := by
    have counted := phase.bodies m
    by_cases same : m = s.accepted
    · subst same
      rw [(phase.accepted s.accepted).mpr (Nat.le_refl _)] at counted
      simpa [WorkerState.hasBegun] using counted
    · simpa only [setWorker, setCaller, update_of_ne same] using counted

theorem Phase.mark (phase : Phase (some (c, n, .marking)) live s) :
    Phase (some (c, n, .creating)) live
      { s.setCaller c (.launching n .creating) with workerActive := true } :=
  { phase with
    launch := phase.launch_setCaller _
    own := by
      rintro _ _ _ m ⟨⟩ lives
      exact absurd (phase.own _ _ _ m rfl lives).2 (by decide)
    fits := by
      rintro _ _ _ ⟨⟩
      exact phase.fits _ _ .marking rfl
    prepared m preparing := by
      obtain ⟨_, _, ⟨⟩⟩ := phase.prepared m preparing
      exact ⟨_, _, rfl⟩
    active := rfl }

/-- The thread is created, or could not be. -/
theorem Phase.create (phase : Phase (some (c, n, .creating)) live s) (created : Bool) :
    Phase (some (c, n, if created then .assigning else .failing)) (if created then some n else none)
      (s.createThread c n created) := by
  obtain rfl := phase.live_eq_none (by decide)
  have preparing : s.workers n = .preparing := of_decide_eq_true (phase.fits _ _ .creating rfl)
  cases created
  all_goals exact
    { phase with
      launch := phase.launch_setCaller _
      threads := threads_update phase.threads (by simp) _
      own := by simp +contextual
      fits := by
        rintro _ _ _ ⟨⟩
        simp [createThread]
      prepared := prepared_update (by
        rintro m other preparing
        obtain ⟨_, _, ⟨⟩⟩ := phase.prepared m preparing
        contradiction) (by simp)
      running := by simp [createThread, phase.running]
      accepted := accepted_update phase.accepted (by rw [preparing]; decide) (by decide)
      bodies := bodies_update phase.bodies (by rw [preparing]; rfl) }

theorem Phase.assign (phase : Phase (some (c, n, .assigning)) live s) :
    Phase none live { s.setCaller c .returning with worker := some n } :=
  { phase with
    launch := phase.launch_setCaller _
    own := by simp
    free := by simp
    fits := by simp
    prepared m preparing := absurd preparing (phase.not_preparing rfl m) }

theorem Phase.fail (phase : Phase (some (c, n, .failing)) live s) :
    Phase (some (c, n, .unmarking)) live (s.finishOperationFailure.setCaller c (.launching n .unmarking)) := by
  obtain rfl := phase.live_eq_none (by decide)
  exact
    { phase with
      launch := phase.launch_setCaller _
      own := by simp
      fits := by
        rintro _ _ _ ⟨⟩
        exact phase.fits _ _ .failing rfl
      prepared := by
        intro m preparing
        obtain ⟨_, _, ⟨⟩⟩ := phase.prepared m preparing
        exact ⟨_, _, rfl⟩
      running := rfl
      bodies := phase.bodies }

theorem Phase.unmark (phase : Phase (some (c, n, .unmarking)) live s) :
    Phase none live { s.setCaller c .idle with workerActive := false } := by
  obtain rfl := phase.live_eq_none (by decide)
  exact
    { phase with
      launch := phase.launch_setCaller _
      own := by simp
      free := by simp
      fits := by simp
      prepared := fun m preparing => absurd preparing (phase.not_preparing rfl m)
      active := rfl
      bodies := phase.bodies }

/-- While a thread lives, its start can only be about to assign it. -/
theorem Phase.of_live (phase : Phase launching (some n) s) :
    launching = none ∨ ∃ c, launching = some (c, n, .assigning) := by
  rcases launching with _ | ⟨c, m, stage⟩
  · exact .inl rfl
  · obtain ⟨rfl, rfl⟩ := phase.own _ _ _ n rfl rfl
    exact .inr ⟨c, rfl⟩

theorem Phase.fits_setWorker (phase : Phase launching (some n) s) {next : WorkerState}
    (created : next.isAlive = true ∨ next = .exited) (c m : ℕ) (stage : Launch)
    (launched : launching = some (c, m, stage)) : stage.fits ((s.setWorker n next).workers m) = true := by
  obtain ⟨rfl, rfl⟩ := phase.own _ _ _ n launched rfl
  simpa using created

/-- The body begins. -/
theorem Phase.run (phase : Phase launching live s) (ready : s.workers n = .ready) :
    Phase launching live { s.setWorker n .executing with bodies := n :: s.bodies } := by
  obtain rfl : live = some n := (phase.threads n).mp (by rw [ready]; rfl)
  exact
    { phase with
      threads := threads_update phase.threads (by rintro _ ⟨⟩; rfl) _
      fits := phase.fits_setWorker (.inl rfl)
      prepared := prepared_update (fun m _ => phase.prepared m) (by simp)
      running := by
        simpa [ready] using phase.running
      accepted := accepted_update phase.accepted (by rw [ready]; decide) (by decide)
      bodies := by
        intro m
        have counted := phase.bodies m
        by_cases same : m = n
        · subst same
          rw [ready] at counted
          simpa [WorkerState.hasBegun] using counted
        · simpa [same, Ne.symm same, List.count_cons] using counted }

/-- The body ends, one way or the other. -/
theorem Phase.finish (phase : Phase launching live s) (executing : s.workers n = .executing)
    {status : BackupOperationStatus} :
    Phase launching live ({ s with running := false, status := status }.setWorker n .clearing) := by
  obtain rfl : live = some n := (phase.threads n).mp (by rw [executing]; rfl)
  exact
    { phase with
      threads := threads_update phase.threads (by rintro _ ⟨⟩; rfl) _
      fits := phase.fits_setWorker (.inl rfl)
      prepared := prepared_update (fun m _ => phase.prepared m) (by simp)
      running := by rcases phase.of_live with rfl | ⟨c, rfl⟩ <;> simp
      accepted := accepted_update phase.accepted (by rw [executing]; decide) (by decide)
      bodies := bodies_update phase.bodies (by rw [executing]; rfl) }

/-- The thread clears the flag and exits. -/
theorem Phase.clear (phase : Phase launching live s) (clearing : s.workers n = .clearing) :
    Phase launching none { s.setWorker n .exited with workerActive := false } := by
  obtain rfl : live = some n := (phase.threads n).mp (by rw [clearing]; rfl)
  exact
    { phase with
      threads := threads_update phase.threads (by rintro _ ⟨⟩; rfl) _
      own := by simp
      fits := phase.fits_setWorker (.inr rfl)
      prepared := prepared_update (fun m _ => phase.prepared m) (by simp)
      active := by rcases phase.of_live with rfl | ⟨c, rfl⟩ <;> rfl
      running := by
        have running := phase.running
        rcases phase.of_live with rfl | ⟨c, rfl⟩ <;> simpa [clearing] using running
      accepted := accepted_update phase.accepted (by rw [clearing]; decide) (by decide)
      bodies := bodies_update phase.bodies (by rw [clearing]; rfl) }

end Steps

section Preservation

variable {action : ServiceStep}

/-- Nothing is left of an earlier operation: its thread has cleared the flag and been joined, and no other start is
between its acceptance and its end. -/
structure Cleared (s : BackupService) : Prop where
  active : s.workerActive = false
  worker : s.worker = none
  launch : ∀ c, s.launch c = none

/-- The step is not a start that is accepted while something is left of an earlier operation. -/
def Orderly (s : BackupService) (action : ServiceStep) : Prop :=
  ∀ c choice kind, action = .caller c choice → s.callers c = .beginning kind → s.running = false → Cleared s

theorem launch_setCaller_of_none {state' : CallerState} (here : s.callers c = state) (outside : state.launch? = none)
    (outside' : state'.launch? = none) : (s.setCaller c state').launch = s.launch := by
  rw [BackupService.launch_setCaller, outside']
  refine update_eq_self_iff.mpr ?_
  rw [BackupService.launch, here, outside]

section

variable (phase : Phase launching live s)

include phase

theorem Phase.launching_eq {stage : Launch}
    (here : s.callers c = .launching n stage) : launching = some (c, n, stage) :=
  (phase.launch c (n, stage)).mp (by rw [BackupService.launch, here]; rfl)

/-- What is cleared is calm. -/
theorem Phase.of_cleared (cleared : Cleared s) : Phase none none s := by
  have no_launch : launching = none := by
    rcases launching with _ | ⟨c, l⟩
    · rfl
    · have launched := (phase.launch c l).mpr rfl
      rw [cleared.launch c] at launched
      contradiction
  subst no_launch
  have no_thread : live = none := by
    have active := phase.active
    rw [cleared.active] at active
    simpa using active
  subst no_thread
  exact phase

theorem Phase.enter (outside : state.launch? = none) (moves : s.enter c state = some s') : Phase launching live s' := by
  rw [BackupService.enter] at moves
  generalize here : s.callers c = state' at moves
  cases state' with
  | idle =>
    cases moves
    exact phase.of_frame (launch_setCaller_of_none here rfl outside) rfl rfl rfl (.inl rfl) rfl rfl rfl
  | _ => contradiction

theorem Phase.joins {next : CallerState} {thread : ℕ} (here : s.callers c = state) (outside : state.launch? = none)
    (outside' : next.launch? = none) (moves : s.joins c thread next = some s') : Phase launching live s' := by
  rw [BackupService.joins] at moves
  split at moves
  · cases moves
    exact phase.of_frame (launch_setCaller_of_none here outside outside') rfl rfl rfl (.inl rfl) rfl rfl rfl
  · contradiction

end

theorem Exclusive.advance (exclusive : Exclusive s) (orderly : Orderly s (.caller c choice))
    (moves : s.advance c choice = some s') : Exclusive s' := by
  obtain ⟨launching, live, phase⟩ := exclusive
  have aside {state state' : CallerState} (here : s.callers c = state) (outside : state.launch? = none)
      (outside' : state'.launch? = none) : Exclusive (s.setCaller c state') :=
    ⟨launching, live,
      phase.of_frame (launch_setCaller_of_none here outside outside') rfl rfl rfl (.inl rfl) rfl rfl rfl⟩
  rw [BackupService.advance] at moves
  generalize here : s.callers c = state at moves
  cases state with
  | idle => contradiction
  | joiningFinished kind =>
    cases moves
    rw [joinFinishedWorker]
    split
    · split
      · exact aside here rfl rfl
      · exact ⟨launching, live,
          phase.of_frame (launch_setCaller_of_none here rfl rfl) rfl rfl rfl (.inr rfl) rfl rfl rfl⟩
    · exact aside here rfl rfl
  | joinsFinished kind thread => exact ⟨launching, live, phase.joins here rfl rfl moves⟩
  | validating kind =>
    cases moves
    exact aside here rfl (by split <;> rfl)
  | beginning kind =>
    cases moves
    rw [beginOperation]
    by_cases busy : s.running = true
    · rw [if_pos busy]
      exact aside here rfl rfl
    · rw [if_neg busy]
      have cleared := orderly c choice kind rfl here (Bool.not_eq_true _ ▸ busy)
      exact ⟨_, _, (phase.of_cleared cleared).begin cleared.worker⟩
  | launching operation stage =>
    obtain rfl := phase.launching_eq here
    cases stage with
    | marking =>
      cases moves
      exact ⟨_, _, phase.mark⟩
    | creating =>
      cases moves
      exact ⟨_, _, phase.create choice⟩
    | assigning =>
      cases moves
      rw [assignWorker, phase.free rfl]
      exact ⟨_, _, phase.assign⟩
    | failing =>
      cases moves
      exact ⟨_, _, phase.fail⟩
    | unmarking =>
      cases moves
      exact ⟨_, _, phase.unmark⟩
  | returning =>
    cases moves
    exact aside here rfl rfl
  | waiting =>
    cases moves
    rw [takeWorker]
    split
    · exact ⟨launching, live, phase.of_frame (launch_setCaller_of_none here rfl rfl) rfl rfl rfl (.inr rfl) rfl rfl rfl⟩
    · exact aside here rfl rfl
  | joinsWorker thread => exact ⟨launching, live, phase.joins here rfl rfl moves⟩

theorem Exclusive.work (exclusive : Exclusive s) (moves : s.work n choice = some s') : Exclusive s' := by
  obtain ⟨launching, live, phase⟩ := exclusive
  rw [BackupService.work] at moves
  generalize here : s.workers n = state at moves
  cases state with
  | ready =>
    cases moves
    exact ⟨_, _, phase.run here⟩
  | executing =>
    cases moves
    cases choice with
    | false | true => exact ⟨_, _, phase.finish here⟩
  | clearing =>
    cases moves
    exact ⟨_, _, phase.clear here⟩
  | unaccepted | preparing | refused | exited => contradiction

/-- Orderly steps keep the invariant. -/
theorem Exclusive.step (exclusive : Exclusive s) (orderly : Orderly s action) (moves : s.step action = some s') :
    Exclusive s' := by
  unfold BackupService.step at moves
  split at moves
  · contradiction
  · cases action with
    | start | wait =>
      obtain ⟨launching, live, phase⟩ := exclusive
      exact ⟨launching, live, phase.enter rfl moves⟩
    | cancel =>
      obtain ⟨launching, live, phase⟩ := exclusive
      cases moves
      rw [cancelCurrentOperation]
      split
      · exact ⟨launching, live, phase.of_frame rfl rfl rfl rfl (.inl rfl) rfl rfl rfl⟩
      · exact ⟨launching, live, phase⟩
    | caller c choice => exact exclusive.advance orderly moves
    | worker operation succeeded => exact exclusive.work moves

end Preservation

/-- What is expected of the service in a state that it has reached. -/
structure WorksAlone (s : BackupService) : Prop where
  /-- At most one operation body runs. -/
  oneBody : ∀ n n', s.workers n = .executing → s.workers n' = .executing → n = n'
  /-- No thread was assigned to `_worker` while it was joinable. -/
  neverReplaced : s.terminated = false
  active : ∀ n, s.workers n = .executing → s.workerActive = true
  /-- The body of an accepted operation has begun once, or it has not begun yet: its start is creating the thread, has
  failed to and throws, or the thread can begin. -/
  once : ∀ n < s.accepted, ((s.workers n).hasBegun = true ∧ s.bodies.count n = 1) ∨
    (s.bodies.count n = 0 ∧ ((∃ c stage, s.callers c = .launching n stage) ∨ s.workers n = .refused ∨
      ∃ s', s.step (.worker n true) = some s'))

theorem Exclusive.worksAlone {s : BackupService} (exclusive : Exclusive s) : WorksAlone s := by
  obtain ⟨launching, live, phase⟩ := exclusive
  have only {n : ℕ} (executing : s.workers n = .executing) : live = some n :=
    (phase.threads n).mp (by rw [executing]; rfl)
  refine ⟨?_, phase.alive, ?_, ?_⟩
  · intro n n' executing executing'
    exact Option.some.inj ((only executing).symm.trans (only executing'))
  · intro n executing
    rw [phase.active, only executing, Option.isSome_some, Bool.or_true]
  · intro n known
    have counted := phase.bodies n
    cases state : s.workers n with
    | unaccepted => exact absurd ((phase.accepted n).mp state) (by omega)
    | preparing =>
      rw [state] at counted
      obtain ⟨c, stage, launched⟩ := phase.prepared n state
      refine .inr ⟨counted, .inl ⟨c, stage, ?_⟩⟩
      exact launch_eq_some_iff.mp ((phase.launch c _).mpr launched)
    | refused =>
      rw [state] at counted
      exact .inr ⟨counted, .inr (.inl rfl)⟩
    | ready =>
      rw [state] at counted
      refine .inr ⟨counted, .inr (.inr ?_)⟩
      rw [step_worker phase.alive, BackupService.work, state]
      exact ⟨_, rfl⟩
    | executing | clearing | exited =>
      rw [state] at counted
      exact .inl ⟨rfl, counted⟩

/-- The runs that go on from a state. -/
def serviceFrom (s : BackupService) : Machine BackupService ServiceStep where
  init service := service = s
  step service action service' := service.step action = some service'

section Disorder

variable {t : BackupService} {d m : ℕ} {kind : OperationKind} {stage : Launch}

theorem orderly_worker {succeeded : Bool} : Orderly s (.worker n succeeded) := by
  rintro c choice kind ⟨⟩

theorem orderly_launching (here : s.callers c = .launching n stage) : Orderly s (.caller c choice) := by
  rintro _ _ kind ⟨⟩ begins
  rw [here] at begins
  contradiction

/-- The service after a start has been accepted and has created its thread. -/
structure LaunchedOver (s : BackupService) (c : ℕ) (t : BackupService) : Prop where
  alive : t.terminated = false
  caller : t.callers c = .launching s.accepted .assigning
  others : ∀ d ≠ c, t.callers d = s.callers d
  thread : t.workers s.accepted = .ready
  threads : ∀ n ≠ s.accepted, t.workers n = s.workers n
  worker : t.worker = s.worker

variable {origin : BackupService}

/-- An orderly step of a calling thread that is past its acceptance. -/
theorem reachable_advance {t' : BackupService} (reached : (serviceFrom origin).Reachable Orderly t)
    (alive : t.terminated = false) (here : t.callers c = .launching n stage) (moves : t.advance c true = some t') :
    (serviceFrom origin).Reachable Orderly t' :=
  reached.next (orderly_launching here) ((step_caller alive).trans moves)

theorem reachable_work {t' : BackupService} (reached : (serviceFrom origin).Reachable Orderly t)
    (alive : t.terminated = false) (moves : t.work n true = some t') : (serviceFrom origin).Reachable Orderly t' :=
  reached.next orderly_worker ((step_worker alive).trans moves)

attribute [local simp] setWorker setCaller createThread beginOperation in
/-- An accepted start comes to the point where it assigns its thread. -/
theorem exists_launchedOver (alive : s.terminated = false) (idle : s.running = false)
    (reached : (serviceFrom origin).Reachable Orderly (s.beginOperation c kind)) :
    ∃ t, (serviceFrom origin).Reachable Orderly t ∧ LaunchedOver s c t := by
  have caller : (s.beginOperation c kind).callers c = .launching s.accepted .marking := by
    simp [idle]
  have begun : (s.beginOperation c kind).terminated = false := by
    simpa [idle] using alive
  have marked := reachable_advance reached begun caller (by rw [BackupService.advance, caller])
  have caller' : ((s.beginOperation c kind).setCaller c (.launching s.accepted .creating)).callers c =
      .launching s.accepted .creating := update_self ..
  have created := reachable_advance marked begun caller' (by rw [BackupService.advance]; dsimp only; rw [caller'])
  refine ⟨_, created, ?_⟩
  constructor
  · exact begun
  · simp
  · intro d other
    simp [idle, other]
  · simp
  · intro n other
    simp [idle, other]
  · simp [idle]

/-- Its thread begins. -/
theorem exists_executing (launched : LaunchedOver s c t) (reached : (serviceFrom origin).Reachable Orderly t) :
    ∃ t', (serviceFrom origin).Reachable Orderly t' ∧ t'.terminated = false ∧ t'.workers s.accepted = .executing ∧
      (∀ d ≠ c, t'.callers d = s.callers d) ∧ ∀ n ≠ s.accepted, t'.workers n = s.workers n := by
  have began := reachable_work reached launched.alive (by rw [BackupService.work, launched.thread])
  refine ⟨_, began, launched.alive, update_self .., launched.others, fun n other => ?_⟩
  exact (update_of_ne other ..).trans (launched.threads n other)

/-- The flag is cleared under a running body. -/
theorem not_worksAlone_of_inactive (executing : t.workers n = .executing) (inactive : t.workerActive = false) :
    ¬ WorksAlone t := by
  intro alone
  rw [alone.active n executing] at inactive
  contradiction

theorem not_worksAlone_of_terminated (terminated : t.terminated = true) : ¬ WorksAlone t := by
  intro alone
  rw [alone.neverReplaced] at terminated
  contradiction

theorem advance_assigning (here : t.callers c = .launching n .assigning) :
    t.advance c choice = some (t.assignWorker c n) := by
  rw [BackupService.advance, here]

section

variable (launched : LaunchedOver s c t) (reached : (serviceFrom origin).Reachable Orderly t)

include launched reached

/-- The thread handle still holds a thread. -/
theorem exists_replaced
    (held : s.worker.isSome) : ∃ t', (serviceFrom origin).Reachable Orderly t' ∧ ¬ WorksAlone t' := by
  have replaced := reachable_advance reached launched.alive launched.caller (advance_assigning launched.caller)
  refine ⟨_, replaced, not_worksAlone_of_terminated ?_⟩
  rw [assignWorker, launched.worker, if_pos held]

/-- An earlier start has not assigned its thread yet. -/
theorem exists_replaced_of_assigning (free : s.worker = none) (differ : d ≠ c)
    (earlier : s.callers d = .launching m .assigning) :
    ∃ t', (serviceFrom origin).Reachable Orderly t' ∧ ¬ WorksAlone t' := by
  have assigned := reachable_advance reached launched.alive launched.caller (advance_assigning launched.caller)
  have result : t.assignWorker c s.accepted = { t.setCaller c .returning with worker := some s.accepted } := by
    rw [assignWorker, launched.worker, free]
    rfl
  rw [result] at assigned
  have here := (update_of_ne differ .returning t.callers).trans ((launched.others d differ).trans earlier)
  have replaced := reachable_advance assigned launched.alive here (advance_assigning here)
  exact ⟨_, replaced, not_worksAlone_of_terminated rfl⟩

/-- An earlier start that failed has not cleared the flag yet. -/
theorem exists_inactive_of_unmarking (differ : d ≠ c) (earlier : s.callers d = .launching m .unmarking) :
    ∃ t', (serviceFrom origin).Reachable Orderly t' ∧ ¬ WorksAlone t' := by
  obtain ⟨t', reached', alive, executing, callers, -⟩ := exists_executing launched reached
  have here := (callers d differ).trans earlier
  have unmarked := reachable_advance reached' alive here (by rw [BackupService.advance, here])
  exact ⟨_, unmarked, not_worksAlone_of_inactive executing rfl⟩

/-- The thread of an earlier operation has not cleared the flag yet. -/
theorem exists_inactive_of_clearing (differ : m ≠ s.accepted) (earlier : s.workers m = .clearing) :
    ∃ t', (serviceFrom origin).Reachable Orderly t' ∧ ¬ WorksAlone t' := by
  obtain ⟨t', reached', alive, executing, -, threads⟩ := exists_executing launched reached
  have here := (threads m differ).trans earlier
  have cleared := reachable_work reached' alive (by rw [BackupService.work, here])
  have still := (update_of_ne differ.symm .exited t'.workers).trans executing
  exact ⟨_, cleared, not_worksAlone_of_inactive still rfl⟩

end

/-- A start that is accepted while something is left of an earlier operation can be carried on to a state in which the
thread handle is replaced or a body runs unmarked. -/
theorem exists_not_worksAlone (exclusive : Exclusive s) (here : s.callers c = .beginning kind)
    (idle : s.running = false) (left : ¬ Cleared s)
    (reached : (serviceFrom origin).Reachable Orderly (s.beginOperation c kind)) :
    ∃ t, (serviceFrom origin).Reachable Orderly t ∧ ¬ WorksAlone t := by
  obtain ⟨launching, live, phase⟩ := exclusive
  obtain ⟨t, reached', launched⟩ := exists_launchedOver phase.alive idle reached
  have running := phase.running
  rw [idle] at running
  cases held : s.worker with
  | some thread => exact exists_replaced launched reached' (by rw [held]; rfl)
  | none =>
    rcases launching with _ | ⟨d, m, stage⟩
    · cases live with
      | none =>
        refine absurd ⟨phase.active, held, fun c => ?_⟩ left
        rw [← Option.not_isSome_iff_eq_none, Option.isSome_iff_exists]
        rintro ⟨l, launched⟩
        cases (phase.launch c l).mp launched
      | some n =>
        have lives := (phase.threads n).mpr rfl
        have resting : (s.workers n).isRunning = false := running.symm
        have earlier : s.workers n = .clearing := by
          cases state : s.workers n <;> rw [state] at lives resting <;> first | rfl | contradiction
        refine exists_inactive_of_clearing launched reached' ?_ earlier
        rintro rfl
        rw [(phase.accepted s.accepted).mpr (Nat.le_refl _)] at earlier
        contradiction
    · have earlier := launch_eq_some_iff.mp ((phase.launch d (m, stage)).mpr rfl)
      have differ : d ≠ c := by
        rintro rfl
        rw [here] at earlier
        contradiction
      cases stage with
      | marking | creating => simp [Launch.isRunning] at running
      | assigning => exact exists_replaced_of_assigning launched reached' held differ earlier
      | failing => simp [Launch.isRunning] at running
      | unmarking => exact exists_inactive_of_unmarking launched reached' differ earlier

end Disorder

section Runs

theorem exclusive_of_from {origin : BackupService} (exclusive : Exclusive origin)
    (reached : (serviceFrom origin).Reachable Orderly s) : Exclusive s := by
  refine reached.invariant ?_ fun s action t kept orderly moves => kept.step orderly moves
  rintro s rfl
  exact exclusive

theorem exclusive_of_reachable (reached : serviceMachine.Reachable Orderly s) : Exclusive s := by
  refine reached.invariant ?_ fun s action t kept orderly moves => kept.step orderly moves
  rintro s rfl
  exact ⟨none, none, phase_initial⟩

/-- A run of orderly steps keeps one worker at a time, and a further step keeps it for good exactly if it is orderly. -/
theorem worksAlone_iff_orderly (reached : serviceMachine.Reachable Orderly s) :
    WorksAlone s ∧ ∀ action s', s.step action = some s' →
      ((∀ t, (serviceFrom s').Reachable Orderly t → WorksAlone t) ↔ Orderly s action) := by
  have exclusive := exclusive_of_reachable reached
  refine ⟨exclusive.worksAlone, fun action s' moves => ⟨fun always => ?_, fun orderly t reached' => ?_⟩⟩
  · rintro c choice kind rfl here idle
    by_contra left
    have alive : s.terminated = false := exclusive.worksAlone.neverReplaced
    rw [step_caller alive, advance, here] at moves
    cases moves
    obtain ⟨t, reached', broken⟩ := exists_not_worksAlone exclusive here idle left (.start rfl)
    exact broken (always t reached')
  · exact (exclusive_of_from (exclusive.step orderly moves) reached').worksAlone

/-- A first request has come to its acceptance. Nothing is left of an earlier one, so it may be accepted. -/
theorem worksAlone_after_first_request : ∃ s, serviceMachine.Reachable Orderly s ∧
    s.callers 0 = .beginning .uploadLatest ∧
    ∀ t, (serviceFrom (s.beginOperation 0 .uploadLatest)).Reachable Orderly t → WorksAlone t := by
  let entered := ({} : BackupService).setCaller 0 (.joiningFinished .uploadLatest)
  let s := (entered.setCaller 0 (.validating .uploadLatest)).setCaller 0 (.beginning .uploadLatest)
  have reached : serviceMachine.Reachable Orderly s := by
    refine .next (a := .caller 0 true) (.next (a := .caller 0 true)
      (.next (a := .start 0 .uploadLatest) (.start rfl) ?_ rfl) ?_ rfl) ?_ rfl
    · rintro c choice kind ⟨⟩
    · rintro c choice kind ⟨⟩ ⟨⟩
    · rintro c choice kind ⟨⟩ ⟨⟩
  have cleared : Cleared s := by
    refine ⟨rfl, rfl, fun c => ?_⟩
    cases c <;> rfl
  refine ⟨s, reached, rfl, ((worksAlone_iff_orderly reached).2 (.caller 0 true) _ rfl).mpr ?_⟩
  exact fun _ _ _ _ _ _ => cleared

/-- A run of the service. -/
def BackupService.run (steps : List ServiceStep) : Option BackupService := steps.foldlM BackupService.step {}

theorem reachable_of_foldlM {steps : List ServiceStep} (reached : serviceMachine.Reachable (fun _ _ => True) s)
    (runs : steps.foldlM BackupService.step s = some s') : serviceMachine.Reachable (fun _ _ => True) s' := by
  induction steps generalizing s with
  | nil =>
    cases runs
    exact reached
  | cons action steps ih =>
    rw [List.foldlM_cons] at runs
    obtain ⟨t, moves, runs⟩ := Option.bind_eq_some_iff.mp runs
    exact ih (reached.next trivial moves) runs

theorem exists_of_run (steps : List ServiceStep) {holds : BackupService → Prop} [DecidablePred holds]
    (ends : (BackupService.run steps).any (fun s => decide (holds s)) = true) :
    ∃ s, serviceMachine.Reachable (fun _ _ => True) s ∧ holds s := by
  obtain ⟨s, ran, held⟩ := exists_of_any ends
  exact ⟨s, reachable_of_foldlM (.start rfl) ran, held⟩

/-- An upload runs to the point where its thread has yet to clear the flag, and another start is accepted and creates
its thread. -/
def overlappingStarts : List ServiceStep :=
  .start 0 .uploadLatest :: List.replicate 6 (.caller 0 true) ++ [.worker 0 true, .worker 0 true] ++
    .start 1 .uploadLatest :: List.replicate 5 (.caller 1 true)

/-- The second start replaces a joinable thread, or its body runs while the first thread clears the flag. -/
theorem overlapping_starts_break_exclusion :
    (∃ s, serviceMachine.Reachable (fun _ _ => True) s ∧ s.terminated = true) ∧
    ∃ s, serviceMachine.Reachable (fun _ _ => True) s ∧ s.workers 1 = .executing ∧ s.workerActive = false :=
  ⟨exists_of_run (overlappingStarts ++ [.caller 1 true]) (by decide),
    exists_of_run (overlappingStarts ++ [.worker 1 true, .worker 0 true]) (by decide)⟩

end Runs

end Teleno.Backup
