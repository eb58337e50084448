import Teleno.Library.Exec

/-! # Programs that may be cut at any step

A step changes the state at once, or the environment lets it fail, or the process stops before it. The environment
says beforehand what happens to each step, so a state between two steps is the final state of the run that stops
there. `Ends` gives what holds when a program returns and what holds when it does not, and follows the program rule
by rule.
-/

namespace Teleno.Library

open Exec

/-- What the environment does to one step. -/
inductive Fault where
  | none
  | fails
  | stops
deriving DecidableEq

/-- Why a program did not return: it threw, or the process stopped. -/
inductive Interrupt where
  | failed (message : String)
  | stopped
deriving DecidableEq

variable {σ α : Type} {s : σ} {returned : α → σ → Prop} {cut : σ → Prop}

section Steps

/-- One step, which throws when it fails. -/
def step (fault : Fault) (message : String) (action : σ → σ) : EStateM Interrupt σ Unit :=
  match fault with
  | .none => modify action
  | .fails => throw (.failed message)
  | .stops => throw .stopped

/-- One step that the state may refuse. -/
def refusableStep (fault : Fault) (message : String) (action : σ → Option σ) : EStateM Interrupt σ Unit :=
  match fault with
  | .none => do
    match action (← get) with
    | some s => set s
    | none => throw (.failed message)
  | .fails => throw (.failed message)
  | .stops => throw .stopped

/-- One step with an error code. -/
def tryStep (fault : Fault) (action : σ → σ) : EStateM Interrupt σ Bool :=
  match fault with
  | .none => do
    modify action
    pure true
  | .fails => pure false
  | .stops => throw .stopped

end Steps

/-- What holds when the program returns, and what holds when it does not. -/
def Ends {ε σ α : Type} (program : EStateM ε σ α) (s : σ) (returned : α → σ → Prop) (interrupted : σ → Prop) : Prop :=
  match program s with
  | .ok a s' => returned a s'
  | .error _ s' => interrupted s'

namespace Ends

variable {ε β γ : Type} {program : EStateM ε σ α} {s' : σ}

variable {a : α} {e : ε}

theorem of_ok (ends : Ends program s returned cut) (ok : program s = .ok a s') : returned a s' := by
  rw [Ends, ok] at ends
  exact ends

theorem of_error (ends : Ends program s returned cut) (err : program s = .error e s') : cut s' := by
  rw [Ends, err] at ends
  exact ends

/-- A program that is never interrupted returns. -/
theorem exists_ok (ends : Ends program s returned fun _ => False) : ∃ a s', program s = .ok a s' ∧ returned a s' := by
  cases outcome : program s with
  | ok a s' => exact ⟨a, s', rfl, ends.of_ok outcome⟩
  | error e s' => exact (ends.of_error outcome).elim

theorem mono {returned' : α → σ → Prop} {cut' : σ → Prop} (ends : Ends program s returned cut)
    (returns : ∀ a s', returned a s' → returned' a s') (interrupts : ∀ s', cut s' → cut' s') :
    Ends program s returned' cut' := by
  rw [Ends] at ends ⊢
  cases outcome : program s with
  | ok a s' =>
    rw [outcome] at ends
    exact returns a s' ends
  | error e s' =>
    rw [outcome] at ends
    exact interrupts s' ends

/-- A property of both kinds of end is one of the final state. -/
theorem final {holds : σ → Prop} (ends : Ends program s (fun _ => holds) holds) : holds (Exec.final (program s)) := by
  rw [Ends] at ends
  cases outcome : program s with
  | ok a s' =>
    rw [outcome] at ends
    exact ends
  | error e s' =>
    rw [outcome] at ends
    exact ends

theorem pure (ok : returned a s) : Ends (Pure.pure a : EStateM ε σ α) s returned cut := ok

theorem throw (interrupts : cut s) : Ends (throw e : EStateM ε σ α) s returned cut := interrupts

theorem bind {next : α → EStateM ε σ β} {between : α → σ → Prop} {returned : β → σ → Prop}
    (first : Ends program s between cut) (rest : ∀ a s', between a s' → Ends (next a) s' returned cut) :
    Ends (program >>= next) s returned cut := by
  cases outcome : program s with
  | ok a s' =>
    rw [Ends, bind_of_ok outcome]
    exact rest a s' (first.of_ok outcome)
  | error e s' =>
    rw [Ends, bind_of_error outcome]
    exact first.of_error outcome

theorem get_bind {next : σ → EStateM ε σ β} {returned : β → σ → Prop} (rest : Ends (next s) s returned cut) :
    Ends (get >>= next) s returned cut := rest

theorem require {holds : Bool} {next : Unit → EStateM ε σ β} {returned : β → σ → Prop} (interrupts : cut s)
    (rest : holds = true → Ends (next ()) s returned cut) : Ends (Exec.require holds e >>= next) s returned cut := by
  cases holds with
  | false => exact interrupts
  | true => exact rest rfl

theorem require_last {holds : Bool} {returned : Unit → σ → Prop} (interrupts : cut s)
    (ok : holds = true → returned () s) : Ends (Exec.require holds e) s returned cut := by
  cases holds with
  | false => exact interrupts
  | true => exact ok rfl

/-- A loop keeps what each round keeps of the items that are left. -/
theorem forM {visit : γ → EStateM ε σ PUnit} {items : List γ} (holds : List γ → σ → Prop)
    (round : ∀ item rest s, holds (item :: rest) s → Ends (visit item) s (fun _ => holds rest) cut)
    (start : holds items s) : Ends (items.forM visit) s (fun _ => holds []) cut := by
  induction items generalizing s with
  | nil => exact start
  | cons item rest ih => exact (round item rest s start).bind fun _ s' kept => ih kept

/-- A loop with an accumulator. -/
theorem foldlM {visit : α → γ → EStateM ε σ α} {items : List γ} (holds : List γ → α → σ → Prop)
    (round : ∀ item rest a s, holds (item :: rest) a s → Ends (visit a item) s (holds rest) cut)
    (start : holds items a s) : Ends (items.foldlM visit a) s (holds []) cut := by
  induction items generalizing a s with
  | nil => exact start
  | cons item rest ih =>
    rw [List.foldlM_cons]
    exact (round item rest a s start).bind fun _ _ kept => ih kept

theorem discard {returned : Unit → σ → Prop} (ends : Ends program s (fun _ => returned ()) cut) :
    Ends (Functor.discard program) s returned cut := by
  have unfolded : Functor.discard program = program >>= fun _ => Pure.pure () := by
    rw [← map_eq_pure_bind]
    rfl
  rw [unfolded]
  exact ends.bind fun _ _ kept => kept

/-- A handler starts from the state in which the exception was thrown. -/
theorem tryCatch {handler : ε → EStateM ε σ α} {caught : σ → Prop} (body : Ends program s returned caught)
    (handled : ∀ e s', caught s' → Ends (handler e) s' returned cut) :
    Ends (tryCatch program handler) s returned cut := by
  cases outcome : program s with
  | ok a s' =>
    rw [Ends, tryCatch_of_ok outcome]
    exact body.of_ok outcome
  | error e s' =>
    rw [Ends, tryCatch_of_error outcome]
    exact handled e s' (body.of_error outcome)

end Ends

section StepEnds

variable {fault : Fault} {message : String} {action : σ → σ}

theorem ends_step {returned : Unit → σ → Prop} (done : returned () (action s)) (interrupts : cut s) :
    Ends (step fault message action) s returned cut := by
  cases fault with
  | none => exact done
  | fails | stops => exact interrupts

variable {next : Unit → EStateM Interrupt σ α}

/-- A step before the rest of a program. -/
theorem ends_step_bind (rest : Ends (next ()) (action s) returned cut) (interrupts : cut s) :
    Ends (step fault message action >>= next) s returned cut := by
  cases fault with
  | none => exact rest
  | fails | stops => exact interrupts

/-- A step that the environment does not touch. -/
theorem ends_step_none {returned : Unit → σ → Prop} (untouched : fault = .none) (done : returned () (action s)) :
    Ends (step fault message action) s returned cut := by
  subst untouched
  exact done

theorem ends_step_none_bind (untouched : fault = .none) (rest : Ends (next ()) (action s) returned cut) :
    Ends (step fault message action >>= next) s returned cut := by
  subst untouched
  exact rest

theorem ends_refusableStep {action : σ → Option σ} {returned : Unit → σ → Prop}
    (done : ∀ s', action s = some s' → returned () s') (interrupts : cut s) :
    Ends (refusableStep fault message action) s returned cut := by
  cases fault with
  | none =>
    cases outcome : action s with
    | none =>
      have refused : refusableStep .none message action s = .error (.failed message) s := by
        simp only [refusableStep, Exec.get_bind, outcome]
        rfl
      rw [Ends, refused]
      exact interrupts
    | some s' =>
      have accepted : refusableStep .none message action s = .ok () s' := by
        simp only [refusableStep, Exec.get_bind, outcome]
        rfl
      rw [Ends, accepted]
      exact done s' outcome
  | fails | stops => exact interrupts

/-- A step that the state may refuse, before the rest of a program. -/
theorem ends_refusableStep_bind {action : σ → Option σ}
    (rest : ∀ s', action s = some s' → Ends (next ()) s' returned cut) (interrupts : cut s) :
    Ends (refusableStep fault message action >>= next) s returned cut :=
  (ends_refusableStep (fun _ accepted => accepted) interrupts).bind fun _ s' accepted => rest s' accepted

theorem ends_tryStep {returned : Bool → σ → Prop} (done : returned true (action s)) (failed : returned false s)
    (interrupts : cut s) : Ends (tryStep fault action) s returned cut := by
  cases fault with
  | none => exact done
  | fails => exact failed
  | stops => exact interrupts

/-- A step with an error code before the rest of a program. -/
theorem ends_tryStep_bind {next : Bool → EStateM Interrupt σ α}
    (rest : Ends (next true) (action s) returned cut) (failed : Ends (next false) s returned cut)
    (interrupts : cut s) : Ends (tryStep fault action >>= next) s returned cut := by
  cases fault with
  | none => exact rest
  | fails => exact failed
  | stops => exact interrupts

/-- A step whose error code is ignored, before the rest of a program. -/
theorem ends_discard_tryStep_bind
    (rest : Ends (next ()) (action s) returned cut) (failed : Ends (next ()) s returned cut)
    (interrupts : cut s) : Ends (discard (tryStep fault action) >>= next) s returned cut := by
  cases fault with
  | none => exact rest
  | fails => exact failed
  | stops => exact interrupts

/-- The same, when the rest only relies on what holds either way. -/
theorem ends_discard_tryStep_bind_of {holds : σ → Prop} (done : holds (action s)) (failed : holds s)
    (rest : ∀ s, holds s → Ends (next ()) s returned cut) (interrupts : cut s) :
    Ends (discard (tryStep fault action) >>= next) s returned cut :=
  ends_discard_tryStep_bind (rest _ done) (rest _ failed) interrupts

end StepEnds

end Teleno.Library
