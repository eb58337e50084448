import Mathlib.Data.Nat.Init
import Mathlib.Order.Defs.Unbundled

/-! # Programs that throw and keep their state

Programs are `EStateM` computations: an exception carries the state in which it was thrown, and a
handler continues from there. `within` runs a body on another state and comes back however the body
ends; running on a part of the state (`focus`) and running a cleanup (`bracket`) are instances. Two
programs are compared from one state, rule by rule, and `Throws` follows an exception through binds,
scopes and handlers. `Moves` bounds what a program does to the state by a preorder, and `Raises` what
it can throw; both are checked along the program.
-/

namespace Teleno.Library

namespace Exec

variable {ε σ τ α β γ : Type}

/-- Run a body on a state made from the current one and return to the latter's type. -/
def within (enter : σ → τ) (leave : σ → τ → σ) (body : EStateM ε τ α) : EStateM ε σ α := fun s =>
  match body (enter s) with
  | .ok a t => .ok a (leave s t)
  | .error e t => .error e (leave s t)

/-- Run a program on a part of the state. -/
abbrev focus (get : σ → τ) (set : τ → σ → σ) (program : EStateM ε τ α) : EStateM ε σ α :=
  within get (fun s t => set t s) program

/-- Run a cleanup whether the body returns or throws, like a destructor. -/
abbrev bracket (cleanup : σ → σ) (body : EStateM ε σ α) : EStateM ε σ α :=
  within id (fun _ s => cleanup s) body

/-- Throw unless the condition holds. -/
def require (holds : Bool) (e : ε) : EStateM ε σ Unit := if holds then pure () else throw e

/-- The state in which a program ends, by return or by exception. -/
def final : EStateM.Result ε σ α → σ
  | .ok _ s => s
  | .error _ s => s

/-- What a program returns, if it does. -/
def value : EStateM.Result ε σ α → Option α
  | .ok a _ => some a
  | .error _ _ => none

/-- Turn an exception into a value. -/
def attempt (program : EStateM ε σ α) : EStateM ε σ (Except ε α) :=
  tryCatch (Except.ok <$> program) fun e => pure (.error e)

variable {program : EStateM ε σ α} {s s' : σ} {a : α} {kind : ε → Prop}

section Outcome

variable {next : α → EStateM ε σ β} {handler : ε → EStateM ε σ α} {enter : σ → τ} {leave : σ → τ → σ}
  {body : EStateM ε τ α} {t : τ} {e : ε}

theorem bind_of_ok (ok : program s = .ok a s') : (program >>= next) s = next a s' := by
  simp [bind, EStateM.bind, ok]

theorem bind_of_error (err : program s = .error e s') : (program >>= next) s = .error e s' := by
  simp [bind, EStateM.bind, err]

theorem tryCatch_of_ok (ok : program s = .ok a s') : tryCatch program handler s = .ok a s' := by
  change EStateM.tryCatch program handler s = _
  delta EStateM.tryCatch
  simp [ok]

theorem tryCatch_of_error (err : program s = .error e s') : tryCatch program handler s = handler e s' := by
  change EStateM.tryCatch program handler s = _
  delta EStateM.tryCatch
  simp only [err]
  rfl

theorem within_of_ok (ok : body (enter s) = .ok a t) : within enter leave body s = .ok a (leave s t) := by
  simp [within, ok]

theorem within_of_error (err : body (enter s) = .error e t) : within enter leave body s = .error e (leave s t) := by
  simp [within, err]

theorem get_bind (next : σ → EStateM ε σ β) (s : σ) : (get >>= next) s = next s s := rfl

theorem modify_bind (f : σ → σ) (next : PUnit → EStateM ε σ β) (s : σ) :
    (modify f >>= next) s = next () (f s) := rfl

variable {b : β}

theorem exists_of_map_eq_ok {f : α → β} {outcome : Except ε α} (returns : outcome.map f = .ok b) :
    ∃ a, outcome = .ok a ∧ f a = b := by
  cases outcome with
  | error e => contradiction
  | ok a => exact ⟨a, rfl, Except.ok.inj returns⟩

/-- A computation that returns has parts that return. -/
theorem exists_of_bind_eq_ok {outcome : Except ε α} {next : α → Except ε β}
    (returns : outcome >>= next = .ok b) : ∃ a, outcome = .ok a ∧ next a = .ok b := by
  cases outcome with
  | error e => contradiction
  | ok a => exact ⟨a, rfl, returns⟩

theorem require_true (e : ε) (s : σ) : require true e s = .ok () s := rfl

theorem require_bind (holds : Bool) (e : ε) (next : Unit → EStateM ε σ β) (s : σ) :
    (require holds e >>= next) s = if holds then next () s else .error e s := by
  cases holds with
  | true | false => rfl

theorem require_eq_ok_iff {holds : Bool} : require holds e s = .ok () s' ↔ holds ∧ s = s' := by
  cases holds with
  | true => exact ⟨fun ok => ⟨rfl, by cases ok; rfl⟩, fun both => by rw [both.2]; rfl⟩
  | false => exact ⟨fun ok => by contradiction, fun both => absurd both.1 Bool.false_ne_true⟩

/-- A bind returns when both of its parts do. -/
theorem bind_eq_ok {s'' : σ} (returns : (program >>= next) s = .ok b s'') :
    ∃ a s', program s = .ok a s' ∧ next a s' = .ok b s'' := by
  cases outcome : program s with
  | ok a s' => exact ⟨a, s', rfl, (bind_of_ok outcome).symm.trans returns⟩
  | error e s' =>
    rw [bind_of_error outcome] at returns
    contradiction

/-- A bind throws from its first part or from its continuation. -/
theorem bind_eq_error {s'' : σ} (err : (program >>= next) s = .error e s'') :
    program s = .error e s'' ∨ ∃ a s', program s = .ok a s' ∧ next a s' = .error e s'' := by
  cases outcome : program s with
  | ok a s' => exact .inr ⟨a, s', rfl, (bind_of_ok outcome).symm.trans err⟩
  | error e' s' =>
    rw [bind_of_error outcome, EStateM.Result.error.injEq] at err
    exact .inl (by rw [err.1, err.2])

/-- A guarded program returns by itself or through its handler. -/
theorem tryCatch_eq_ok (returns : tryCatch program handler s = .ok a s') :
    program s = .ok a s' ∨ ∃ e t, program s = .error e t ∧ handler e t = .ok a s' := by
  cases outcome : program s with
  | ok a' t =>
    rw [tryCatch_of_ok outcome] at returns
    exact .inl returns
  | error e t => exact .inr ⟨e, t, rfl, (tryCatch_of_error outcome).symm.trans returns⟩

theorem tryCatch_eq_error (err : tryCatch program handler s = .error e s') :
    ∃ e' t, program s = .error e' t ∧ handler e' t = .error e s' := by
  cases outcome : program s with
  | ok a t =>
    rw [tryCatch_of_ok outcome] at err
    contradiction
  | error e' t => exact ⟨e', t, rfl, (tryCatch_of_error outcome).symm.trans err⟩

theorem within_eq_ok (returns : within enter leave body s = .ok a s') :
    ∃ t, body (enter s) = .ok a t ∧ s' = leave s t := by
  cases outcome : body (enter s) with
  | ok a' t =>
    rw [within_of_ok outcome, EStateM.Result.ok.injEq] at returns
    exact ⟨t, by rw [returns.1], returns.2.symm⟩
  | error e t =>
    rw [within_of_error outcome] at returns
    contradiction

theorem within_eq_error (err : within enter leave body s = .error e s') :
    ∃ t, body (enter s) = .error e t ∧ s' = leave s t := by
  cases outcome : body (enter s) with
  | ok a t =>
    rw [within_of_ok outcome] at err
    contradiction
  | error e' t =>
    rw [within_of_error outcome, EStateM.Result.error.injEq] at err
    exact ⟨t, by rw [err.1], err.2.symm⟩

theorem final_within : final (within enter leave body s) = leave s (final (body (enter s))) := by
  cases outcome : body (enter s) with
  | ok a t => rw [within_of_ok outcome, final, final]
  | error e t => rw [within_of_error outcome, final, final]

/-- A property of states survives a bind if both parts keep it. -/
theorem keeps_bind (holds : σ → Prop) (first : holds (final (program s)))
    (rest : ∀ a s', program s = .ok a s' → holds s' → holds (final (next a s'))) :
    holds (final ((program >>= next) s)) := by
  cases outcome : program s with
  | ok a s' =>
    rw [outcome] at first
    rw [bind_of_ok outcome]
    exact rest a s' outcome first
  | error e s' =>
    rw [outcome] at first
    rw [bind_of_error outcome]
    exact first

theorem keeps_tryCatch (holds : σ → Prop) (body : holds (final (program s)))
    (handled : ∀ e s', program s = .error e s' → holds s' → holds (final (handler e s'))) :
    holds (final (tryCatch program handler s)) := by
  cases outcome : program s with
  | ok a s' =>
    rw [outcome] at body
    rw [tryCatch_of_ok outcome]
    exact body
  | error e s' =>
    rw [outcome] at body
    rw [tryCatch_of_error outcome]
    exact handled e s' outcome body

theorem final_require (holds : Bool) (e : ε) (s : σ) : final (require holds e s) = s := by
  cases holds <;> rfl

/-- Run a program for its effect. -/
def ignore (program : EStateM ε σ α) : EStateM ε σ Unit := program >>= fun _ => pure ()

theorem final_ignore (program : EStateM ε σ α) (s : σ) : final (ignore program s) = final (program s) := by
  cases outcome : program s with
  | ok a s' =>
    rw [ignore, bind_of_ok outcome]
    rfl
  | error e s' => rw [ignore, bind_of_error outcome, final, final]

theorem ignore_eq_ok (returns : ignore program s = .ok () s') : ∃ a, program s = .ok a s' := by
  cases outcome : program s with
  | ok a t =>
    rw [ignore, bind_of_ok outcome] at returns
    cases returns
    exact ⟨a, rfl⟩
  | error e t =>
    rw [ignore, bind_of_error outcome] at returns
    cases returns

/-- What the continuation keeps is what the first part of a bind has left. -/
theorem final_bind (view : σ → γ) (keeps : ∀ a s, view (final (next a s)) = view s) :
    view (final ((program >>= next) s)) = view (final (program s)) := by
  cases outcome : program s with
  | ok a s' => rw [bind_of_ok outcome, keeps, final]
  | error e s' => rw [bind_of_error outcome, final, final]

theorem final_tryCatch (view : σ → γ) (keeps : ∀ e s, view (final (handler e s)) = view s) :
    view (final (tryCatch program handler s)) = view (final (program s)) := by
  cases outcome : program s with
  | ok a s' => rw [tryCatch_of_ok outcome]
  | error e s' => rw [tryCatch_of_error outcome, keeps, final]

end Outcome

section Agreement

variable {program' : EStateM ε σ α}

theorem bracket_congr {cleanup : σ → σ} (agree : program s = program' s') :
    bracket cleanup program s = bracket cleanup program' s' := by
  simp [within, agree]

theorem tryCatch_congr {handler : ε → EStateM ε σ α} (agree : program s = program' s') :
    tryCatch program handler s = tryCatch program' handler s' := by
  cases outcome : program' s' with
  | ok a t => rw [tryCatch_of_ok (agree.trans outcome), tryCatch_of_ok outcome]
  | error e t => rw [tryCatch_of_error (agree.trans outcome), tryCatch_of_error outcome]

/-- Programs that agree up to a bind agree after it if their continuations do where they start. -/
theorem bind_congr_at {next next' : α → EStateM ε σ β} (agree : program s = program' s)
    (continuations : ∀ a s', program' s = .ok a s' → next a s' = next' a s') :
    (program >>= next) s = (program' >>= next') s := by
  cases outcome : program' s with
  | ok a s' =>
    rw [bind_of_ok (agree.trans outcome), bind_of_ok outcome]
    exact continuations a s' outcome
  | error e s' => rw [bind_of_error (agree.trans outcome), bind_of_error outcome]

theorem tryCatch_congr_at {handler handler' : ε → EStateM ε σ α} (agree : program s = program' s)
    (handlers : ∀ e s', program' s = .error e s' → handler e s' = handler' e s') :
    tryCatch program handler s = tryCatch program' handler' s := by
  cases outcome : program' s with
  | ok a s' => rw [tryCatch_of_ok (agree.trans outcome), tryCatch_of_ok outcome]
  | error e s' =>
    rw [tryCatch_of_error (agree.trans outcome), tryCatch_of_error outcome]
    exact handlers e s' outcome

theorem within_congr_at {enter : σ → τ} {leave : σ → τ → σ} {body body' : EStateM ε τ α}
    (agree : body (enter s) = body' (enter s)) : within enter leave body s = within enter leave body' s := by
  simp [within, agree]

end Agreement

/-- The program ends in an exception of the given kind. -/
def Throws (kind : ε → Prop) (program : EStateM ε σ α) (s : σ) : Prop :=
  ∃ e s', program s = .error e s' ∧ kind e

instance {kind : ε → Prop} [DecidablePred kind] (program : EStateM ε σ α) (s : σ) :
    Decidable (Throws kind program s) :=
  match outcome : program s with
  | .ok a s' => .isFalse (by rintro ⟨e, t, throws, _⟩; rw [outcome] at throws; contradiction)
  | .error e s' => decidable_of_iff (kind e)
      ⟨fun isKind => ⟨e, s', outcome, isKind⟩, by
        rintro ⟨e', t, throws, isKind⟩
        rw [outcome, EStateM.Result.error.injEq] at throws
        exact throws.1 ▸ isKind⟩

section Throws

theorem Throws.bind {next : α → EStateM ε σ β} (err : Throws kind program s) : Throws kind (program >>= next) s := by
  obtain ⟨e, s', outcome, isKind⟩ := err
  exact ⟨e, s', bind_of_error outcome, isKind⟩

theorem Throws.of_bind {next : α → EStateM ε σ β} (ok : program s = .ok a s')
    (err : Throws kind (next a) s') : Throws kind (program >>= next) s := by
  obtain ⟨e, s'', outcome, isKind⟩ := err
  exact ⟨e, s'', (bind_of_ok ok).trans outcome, isKind⟩

theorem Throws.within {enter : σ → τ} {leave : σ → τ → σ} {body : EStateM ε τ α}
    (err : Throws kind body (enter s)) : Throws kind (Exec.within enter leave body) s := by
  obtain ⟨e, t, outcome, isKind⟩ := err
  exact ⟨e, leave s t, within_of_error outcome, isKind⟩

/-- A handler that throws again whatever it is given lets the exception through. -/
theorem Throws.handled {handler : ε → EStateM ε σ α} (err : Throws kind program s)
    (rethrows : ∀ e s', kind e → Throws kind (handler e) s') : Throws kind (tryCatch program handler) s := by
  obtain ⟨e, s', outcome, isKind⟩ := err
  obtain ⟨e', s'', again, isKind'⟩ := rethrows e s' isKind
  exact ⟨e', s'', (tryCatch_of_error outcome).trans again, isKind'⟩

/-- A program that throws does not return. -/
theorem Throws.not_ok (err : Throws kind program s) : program s ≠ .ok a s' := by
  obtain ⟨e, t, outcome, _⟩ := err
  intro ok
  rw [outcome] at ok
  contradiction

/-- A program that throws nothing returns. -/
theorem exists_ok_of_not_throws (returns : ¬ Throws (fun _ => True) program s) : ∃ a s', program s = .ok a s' := by
  cases outcome : program s with
  | ok a s' => exact ⟨a, s', rfl⟩
  | error e s' => exact (returns ⟨e, s', outcome, trivial⟩).elim

end Throws

section Moves

/-- However the program ends, the relation holds between the states before and after it. -/
def Moves (rel : σ → σ → Prop) (program : EStateM ε σ α) : Prop := ∀ s, rel s (final (program s))

namespace Moves

variable {rel : σ → σ → Prop}

theorem mono {rel' : σ → σ → Prop} (moves : Moves rel program) (le : ∀ s s', rel s s' → rel' s s') :
    Moves rel' program := fun s => le s _ (moves s)

theorem ok {s s' : σ} {a : α} (moves : Moves rel program) (returns : program s = .ok a s') : rel s s' := by
  have moved := moves s
  rw [returns] at moved
  exact moved

theorem modify {f : σ → σ} (step : ∀ s, rel s (f s)) : Moves rel (modify f : EStateM ε σ PUnit) := step

/-- A body on another state moves it, and the way back relates the outer states. -/
theorem within {rel' : τ → τ → Prop} {enter : σ → τ} {leave : σ → τ → σ} {body : EStateM ε τ α}
    (moves : Moves rel' body) (back : ∀ s t, rel' (enter s) t → rel s (leave s t)) :
    Moves rel (within enter leave body) := by
  intro s
  rw [final_within]
  exact back s _ (moves (enter s))

variable [IsPreorder σ rel]

theorem of_final (same : ∀ s, final (program s) = s) : Moves rel program := by
  intro s
  rw [same]
  exact refl_of rel s

theorem pure (a : α) : Moves rel (Pure.pure a : EStateM ε σ α) := .of_final fun _ => rfl

theorem require (holds : Bool) (e : ε) : Moves rel (require holds e : EStateM ε σ Unit) :=
  .of_final (final_require holds e)

theorem bind {next : α → EStateM ε σ β} (first : Moves rel program) (rest : ∀ a, Moves rel (next a)) :
    Moves rel (program >>= next) := by
  intro s
  exact keeps_bind (rel s) (first s) (fun a s' _ before => trans_of rel before (rest a s'))

theorem get_bind {next : σ → EStateM ε σ β} (rest : ∀ s, Moves rel (next s)) : Moves rel (get >>= next) :=
  .bind (.of_final fun _ => rfl) rest

theorem tryCatch {handler : ε → EStateM ε σ α} (body : Moves rel program)
    (handled : ∀ e, Moves rel (handler e)) : Moves rel (tryCatch program handler) := by
  intro s
  exact keeps_tryCatch (rel s) (body s) (fun e s' _ before => trans_of rel before (handled e s'))

theorem throw (e : ε) : Moves rel (throw e : EStateM ε σ α) := .of_final fun _ => rfl

theorem ofExcept (outcome : Except ε α) : Moves rel (MonadExcept.ofExcept outcome : EStateM ε σ α) :=
  .of_final fun _ => by cases outcome <;> rfl

theorem map (f : α → β) (moves : Moves rel program) : Moves rel (f <$> program) :=
  .bind moves fun a => .pure (f a)

theorem ignore (moves : Moves rel program) : Moves rel (ignore program) := .bind moves fun _ => .pure ()

theorem attempt (moves : Moves rel program) : Moves rel (attempt program) :=
  .tryCatch (.map _ moves) fun e => .pure (Except.error e)

theorem forM {γ : Type} {visit : γ → EStateM ε σ PUnit} (each : ∀ c, Moves rel (visit c)) (list : List γ) :
    Moves rel (list.forM visit) := by
  induction list with
  | nil => exact .pure _
  | cons c rest ih => exact .bind (each c) fun _ => ih

end Moves

end Moves

section Raises

/-- The program throws nothing else. -/
def Raises (kind : ε → Prop) (program : EStateM ε σ α) : Prop := ∀ s e s', program s = .error e s' → kind e

namespace Raises

theorem pure (a : α) : Raises kind (Pure.pure a : EStateM ε σ α) := by
  intro s e s' err
  cases err

end Raises

end Raises

end Exec

end Teleno.Library
