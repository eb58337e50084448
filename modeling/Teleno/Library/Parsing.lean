import Mathlib.Data.List.Infix
import Teleno.Library.Exec

/-! # Parsers that can tell a cut input from a wrong one

A parser is a program over the tokens that are left. `Parses` says that it takes exactly these tokens off every
input that starts with them, and that on every shorter part of them it throws an exception that asks for more. Both
carry over to sequences and to repetitions, so a reader of a stream can wait for the rest of a message.
-/

namespace Teleno.Library

open Exec List

variable {ε τ α β : Type}

/-- A program over the tokens that are left. -/
abbrev Parser (ε τ α : Type) := EStateM ε (List τ) α

namespace Parser

/-- Throw unless there are this many tokens. -/
def ensure (e : ε) (count : ℕ) : Parser ε τ Unit := do
  Exec.require (count ≤ (← get).length) e

/-- Take this many tokens off the input. -/
def take (e : ε) (count : ℕ) : Parser ε τ (List τ) := do
  ensure e count
  let left ← get
  set (left.drop count)
  pure (left.take count)

theorem ensure_of_le (e : ε) {count : ℕ} {left : List τ} (enough : count ≤ left.length) :
    ensure e count left = .ok () left := by
  rw [ensure, get_bind, decide_eq_true enough]
  rfl

theorem ensure_of_lt (e : ε) {count : ℕ} {left : List τ} (fewer : left.length < count) :
    ensure e count left = .error e left := by
  rw [ensure, get_bind, decide_eq_false (Nat.not_le.mpr fewer)]
  rfl

/-- Run a parser this many times. -/
def times (parser : Parser ε τ Unit) : ℕ → Parser ε τ Unit
  | 0 => pure ()
  | count + 1 => do
    parser
    times parser count

end Parser

/-- The parser takes exactly these tokens off the input and returns this value, and if they are not all there it
asks for more. -/
structure Parses (short : ε → Prop) (parser : Parser ε τ α) (tokens : List τ) (a : α) : Prop where
  consumes : ∀ rest, parser (tokens ++ rest) = .ok a rest
  awaits : ∀ start, start <+: tokens → start ≠ tokens → Throws short parser start

variable {short : ε → Prop} {parser : Parser ε τ α}

namespace Parses

variable {tokens tokens' : List τ} {a : α} {b : β}

theorem all (parses : Parses short parser tokens a) : parser tokens = .ok a [] := by
  have consumes := parses.consumes []
  rwa [append_nil] at consumes

theorem pure (a : α) : Parses short (Pure.pure a : Parser ε τ α) [] a where
  consumes _ := rfl
  awaits _ isStart partly := absurd (prefix_nil.mp isStart) partly

/-- One parser after the other. -/
theorem bind {next : α → Parser ε τ β} (first : Parses short parser tokens a)
    (second : Parses short (next a) tokens' b) : Parses short (parser >>= next) (tokens ++ tokens') b where
  consumes rest := by
    rw [append_assoc, bind_of_ok (first.consumes _)]
    exact second.consumes rest
  awaits start isStart partly := by
    by_cases reaches : tokens <+: start
    · obtain ⟨start', rfl⟩ := reaches
      have isStart' := (prefix_append_right_inj tokens).mp isStart
      obtain ⟨e, s, err, asks⟩ := second.awaits start' isStart' fun whole => partly (by rw [whole])
      exact ⟨e, s, (bind_of_ok (first.consumes start')).trans err, asks⟩
    · have either := prefix_or_prefix_of_prefix isStart (prefix_append _ _)
      have within := either.resolve_right reaches
      obtain ⟨e, s, err, asks⟩ := first.awaits start within fun whole => reaches (by rw [whole])
      exact ⟨e, s, bind_of_error err, asks⟩

/-- A parser and a program that reads nothing. -/
theorem bind_nil {next : α → Parser ε τ β} (first : Parses short parser tokens a)
    (second : Parses short (next a) [] b) : Parses short (parser >>= next) tokens b := by
  have both := first.bind second
  rwa [append_nil] at both

/-- A function of what a parser returns. -/
theorem map {f : α → β} (first : Parses short parser tokens a) (same : f a = b) :
    Parses short (f <$> parser) tokens b := by
  subst same
  rw [← bind_pure_comp]
  exact first.bind_nil (.pure (f a))

/-- A parser and a check that passes. -/
theorem require {holds : Bool} {e : ε} {next : Unit → Parser ε τ β} (passes : holds = true)
    (second : Parses short (next ()) tokens b) : Parses short (Exec.require holds e >>= next) tokens b := by
  subst passes
  exact second

theorem take {e : ε} (asks : short e) {count : ℕ} (length : tokens.length = count) :
    Parses short (Parser.take e count) tokens tokens where
  consumes rest := by
    subst length
    have enough : decide (tokens.length ≤ (tokens ++ rest).length) = true := by simp
    rw [Parser.take, bind_of_ok (Parser.ensure_of_le e (of_decide_eq_true enough)), get_bind, drop_left,
      take_left]
    rfl
  awaits start isStart partly := by
    have fewer : start.length < count := by
      have le := isStart.length_le
      have ne : start.length ≠ tokens.length := fun same => partly (isStart.eq_of_length same)
      omega
    exact ⟨e, start, bind_of_error (Parser.ensure_of_lt e fewer), asks⟩

/-- The same parser for each of several parts. -/
theorem times {parser : Parser ε τ Unit} {parts : List (List τ)} (each : ∀ part ∈ parts, Parses short parser part ()) :
    Parses short (parser.times parts.length) parts.flatten () := by
  induction parts with
  | nil => exact .pure ()
  | cons part rest ih =>
    exact (each part mem_cons_self).bind (ih fun other mem => each other (mem_cons_of_mem _ mem))

end Parses

/-- Whatever the parser takes off the input has this form. -/
def Accepts (form : List τ → α → Prop) (parser : Parser ε τ α) : Prop :=
  ∀ input a rest, parser input = .ok a rest → ∃ tokens, form tokens a ∧ input = tokens ++ rest

namespace Accepts

variable {form : List τ → α → Prop} {form' : List τ → β → Prop}

theorem length_le (accepts : Accepts form parser) {input rest : List τ} {a : α} (ok : parser input = .ok a rest) :
    rest.length ≤ input.length := by
  obtain ⟨tokens, -, rfl⟩ := accepts input a rest ok
  rw [length_append]
  omega

theorem mono {weaker : List τ → α → Prop} (accepts : Accepts form parser)
    (implies : ∀ tokens a, form tokens a → weaker tokens a) : Accepts weaker parser := by
  intro input a rest ok
  obtain ⟨tokens, formed, split⟩ := accepts input a rest ok
  exact ⟨tokens, implies tokens a formed, split⟩

theorem pure {a : α} (formed : form [] a) : Accepts form (Pure.pure a : Parser ε τ α) := by
  rintro input _ _ ⟨⟩
  exact ⟨[], formed, rfl⟩

theorem throw (e : ε) : Accepts form (throw e : Parser ε τ α) := by
  rintro _ _ _ ⟨⟩

theorem bind {next : α → Parser ε τ β} (first : Accepts form parser)
    (second : ∀ tokens a, form tokens a → Accepts (fun rest b => form' (tokens ++ rest) b) (next a)) :
    Accepts form' (parser >>= next) := by
  intro input b rest ok
  obtain ⟨a, left, firstReturns, nextReturns⟩ := bind_eq_ok ok
  obtain ⟨tokens, formed, rfl⟩ := first input a left firstReturns
  obtain ⟨tokens', formed', rfl⟩ := second tokens a formed left b rest nextReturns
  exact ⟨tokens ++ tokens', formed', (append_assoc _ _ _).symm⟩

theorem require {holds : Bool} {e : ε} {next : Unit → Parser ε τ β}
    (second : holds = true → Accepts form' (next ())) : Accepts form' (Exec.require holds e >>= next) := by
  cases holds with
  | false =>
    intro input b rest ok
    obtain ⟨⟩ := ok
  | true => exact second rfl

theorem map {f : α → β} (first : Accepts form parser) (formed : ∀ tokens a, form tokens a → form' tokens (f a)) :
    Accepts form' (f <$> parser) := by
  rw [← bind_pure_comp]
  refine first.bind fun tokens a isForm => .pure ?_
  rw [append_nil]
  exact formed tokens a isForm

theorem take {e : ε} {count : ℕ} : Accepts (fun tokens a => a = tokens ∧ tokens.length = count)
    (Parser.take e count : Parser ε τ (List τ)) := by
  intro input a rest ok
  by_cases enough : count ≤ input.length
  · rw [Parser.take, bind_of_ok (Parser.ensure_of_le e enough)] at ok
    obtain ⟨⟩ := ok
    exact ⟨input.take count, ⟨rfl, length_take_of_le enough⟩, (take_append_drop count input).symm⟩
  · rw [Parser.take, bind_of_error (Parser.ensure_of_lt e (Nat.lt_of_not_le enough))] at ok
    contradiction

/-- The same parser several times takes off as many parts. -/
theorem times {part : List τ → Prop} {parser : Parser ε τ Unit} (each : Accepts (fun tokens _ => part tokens) parser)
    (count : ℕ) : Accepts (fun tokens _ => ∃ parts : List (List τ),
      parts.length = count ∧ (∀ tokens ∈ parts, part tokens) ∧ tokens = parts.flatten) (parser.times count) := by
  induction count with
  | zero => exact .pure ⟨[], rfl, fun _ mem => absurd mem not_mem_nil, rfl⟩
  | succ count ih =>
    refine each.bind fun tokens _ isPart input a rest ok => ?_
    obtain ⟨tokens', ⟨parts, length, areParts, rfl⟩, split⟩ := ih input a rest ok
    refine ⟨parts.flatten, ⟨tokens :: parts, congrArg (· + 1) length, ?_, rfl⟩, split⟩
    exact forall_mem_cons.mpr ⟨isPart, areParts⟩

end Accepts

/-- Whatever the parser takes off the input, it would take off again from any input that starts with it. -/
abbrev Delimits (short : ε → Prop) (parser : Parser ε τ α) : Prop := Accepts (Parses short parser) parser

namespace Delimits

variable {next : α → Parser ε τ β}

theorem pure (a : α) : Delimits short (Pure.pure a : Parser ε τ α) := Accepts.pure (.pure a)

theorem bind (first : Delimits short parser) (second : ∀ a, Delimits short (next a)) :
    Delimits short (parser >>= next) :=
  Accepts.bind first fun _ a reads => (second a).mono fun _ _ others => reads.bind others

theorem map (f : α → β) (first : Delimits short parser) : Delimits short (f <$> parser) :=
  Accepts.map first fun _ _ reads => reads.map rfl

theorem require {holds : Bool} {e : ε} {next : Unit → Parser ε τ β} (second : Delimits short (next ())) :
    Delimits short (Exec.require holds e >>= next) :=
  Accepts.require fun passes => second.mono fun _ _ reads => .require passes reads

theorem take {e : ε} (asks : short e) (count : ℕ) : Delimits short (Parser.take e count : Parser ε τ (List τ)) := by
  refine Accepts.take.mono ?_
  rintro tokens _ ⟨rfl, length⟩
  exact .take asks length

end Delimits

namespace Parser

/-- Two parsers that agree on inputs up to some length also agree when they are repeated. -/
theorem times_congr {form : List τ → Unit → Prop} {parser parser' : Parser ε τ Unit} (accepts : Accepts form parser)
    {bound : ℕ} (agree : ∀ input, input.length ≤ bound → parser input = parser' input) (count : ℕ) {input : List τ}
    (short : input.length ≤ bound) : parser.times count input = parser'.times count input := by
  induction count generalizing input with
  | zero => rfl
  | succ count ih =>
    apply bind_congr_at (agree input short)
    intro a left ok
    exact ih ((accepts.length_le ((agree input short).trans ok)).trans short)

/-- Pairs are twice as many. -/
theorem times_pairs (parser : Parser ε τ Unit) (count : ℕ) :
    times (do parser; parser) count = times parser (2 * count) := by
  induction count with
  | zero => rfl
  | succ count ih =>
    change (parser >>= fun _ => parser) >>= (fun _ => times (do parser; parser) count) = _
    rw [ih, bind_assoc]
    rfl

end Parser

end Teleno.Library
