import Teleno.Protocol

/-! # SFTP batch commands

A transfer is planned as a list of command texts. An argument is written between quotes, with a backslash before each
quote and each backslash, and every text is parsed again before it is executed. What is parsed is what was written.
-/

namespace Teleno.Backup

open List

structure ParsedSftpCommand where
  ignoreErrors : Bool := false
  op : Bytes
  args : List Bytes
deriving DecidableEq

section Texts

def space : UInt8 := ' '.toUInt8

def quote : UInt8 := '"'.toUInt8

def backslash : UInt8 := '\\'.toUInt8

def dash : UInt8 := '-'.toUInt8

def quoteByte (ch : UInt8) : Bytes := if ch = quote ∨ ch = backslash then [backslash, ch] else [ch]

def sftpQuote (value : Bytes) : Bytes := quote :: value.flatMap quoteByte ++ [quote]

/-- An operation and its quoted arguments, each after one space; the dash asks to ignore a failure. -/
def sftpCommand (ignoreErrors : Bool) (op : Bytes) (args : List Bytes) : Bytes :=
  (if ignoreErrors then [dash] else []) ++ op ++ args.flatMap (space :: sftpQuote ·)

end Texts

section Parsing

def skipSpaces (bytes : Bytes) : Bytes := bytes.dropWhile (· == space)

/-- The rest of a quoted argument, after what was read of it, and what follows it. -/
def quotedArgument : Bool → Bytes → Bytes → Option (Bytes × Bytes)
  | _, _, [] => none
  | true, read, ch :: rest => quotedArgument false (read ++ [ch]) rest
  | false, read, ch :: rest =>
    if ch = backslash then quotedArgument true read rest
    else if ch = quote then some (read, rest)
    else quotedArgument false (read ++ [ch]) rest

/-- The argument that starts with a byte, and what follows it. -/
def parseArgument (ch : UInt8) (rest : Bytes) : Except String (Bytes × Bytes) :=
  if ch = quote then
    match quotedArgument false [] rest with
    | some read => .ok read
    | none => .error "unterminated quoted SFTP batch argument"
  else .ok ((ch :: rest).takeWhile (· != space), (ch :: rest).dropWhile (· != space))

/-- The arguments of a command; each round reads at least one byte. -/
def parseArguments : ℕ → Bytes → Except String (List Bytes)
  | 0, _ => .ok []
  | fuel + 1, bytes =>
    match skipSpaces bytes with
    | [] => .ok []
    | ch :: rest => do
      let (arg, after) ← parseArgument ch rest
      let others ← parseArguments fuel after
      pure (arg :: others)

def parseSftpCommand (command : Bytes) : Except String ParsedSftpCommand := do
  let start := skipSpaces command
  let ignoreErrors := start.head? == some dash
  let bytes := skipSpaces (if ignoreErrors then start.drop 1 else start)
  let op := bytes.takeWhile (· != space)
  if op = [] then throw "empty SFTP batch command"
  let args ← parseArguments command.length (bytes.dropWhile (· != space))
  pure { ignoreErrors := ignoreErrors, op := op, args := args }

end Parsing

section RoundTrip

variable {read rest : Bytes}

/-- A quoted value is read back up to the closing quote. -/
theorem quotedArgument_quote (value : Bytes) :
    quotedArgument false read (value.flatMap quoteByte ++ quote :: rest) = some (read ++ value, rest) := by
  induction value generalizing read with
  | nil => simp [quotedArgument, show quote ≠ backslash by decide]
  | cons ch value ih =>
    rw [flatMap_cons, append_assoc, quoteByte]
    split_ifs with special
    · simp [quotedArgument, ↓reduceIte, ih]
    · rw [not_or] at special
      simp [quotedArgument, special.1, special.2, ↓reduceIte, ih]

theorem skipSpaces_of_ne {first : UInt8} (visible : first ≠ space) (rest : Bytes) :
    skipSpaces (first :: rest) = first :: rest := by
  rw [skipSpaces, dropWhile_cons_of_neg (by simpa using visible)]

/-- One quoted argument after a space. -/
theorem parseArguments_cons (fuel : ℕ) (value : Bytes) :
    parseArguments (fuel + 1) (space :: (sftpQuote value ++ rest)) =
      (parseArguments fuel rest).map (value :: ·) := by
  have skipped : skipSpaces (space :: (sftpQuote value ++ rest)) =
      quote :: (value.flatMap quoteByte ++ quote :: rest) := by
    have reached := skipSpaces_of_ne (show quote ≠ space by decide) (value.flatMap quoteByte ++ quote :: rest)
    simpa [skipSpaces, sftpQuote] using reached
  have parsed : parseArgument quote (value.flatMap quoteByte ++ quote :: rest) = .ok (value, rest) := by
    rw [parseArgument, if_pos rfl, quotedArgument_quote]
    rfl
  rw [parseArguments, skipped]
  dsimp only
  rw [parsed]
  cases outcome : parseArguments fuel rest with
  | error message => simp [bind, Except.bind, outcome, Except.map]
  | ok others => simp [bind, Except.bind, outcome, Except.map, pure, Except.pure]

/-- Enough rounds read every quoted argument. -/
theorem parseArguments_quoted (args : List Bytes) {fuel : ℕ} (enough : args.length ≤ fuel) :
    parseArguments fuel (args.flatMap (space :: sftpQuote ·)) = .ok args := by
  induction args generalizing fuel with
  | nil => cases fuel with
    | zero | succ => rfl
  | cons value args ih =>
    obtain ⟨fuel, rfl⟩ := Nat.exists_eq_add_of_le' (Nat.le_trans (Nat.succ_le_succ (Nat.zero_le _)) enough)
    rw [flatMap_cons, cons_append, parseArguments_cons, ih (Nat.le_of_succ_le_succ enough)]
    rfl

/-- The operation is the first word. -/
theorem span_op {op : Bytes} (plain : space ∉ op) (args : List Bytes) :
    (op ++ args.flatMap (space :: sftpQuote ·)).takeWhile (· != space) = op ∧
      (op ++ args.flatMap (space :: sftpQuote ·)).dropWhile (· != space) =
        args.flatMap (space :: sftpQuote ·) := by
  have word : ∀ ch ∈ op, (ch != space) = true := fun ch mem => bne_iff_ne.mpr (ne_of_mem_of_not_mem mem plain)
  rw [takeWhile_append_of_pos word, dropWhile_append_of_pos word]
  cases args with
  | nil | cons => simp

/-- What is executed is what was planned. -/
theorem parseSftpCommand_sftpCommand (ignoreErrors : Bool) (op : Bytes) (args : List Bytes) (word : op ≠ [])
    (plain : space ∉ op) (unsigned : op.head? ≠ some dash) :
    parseSftpCommand (sftpCommand ignoreErrors op args) =
      .ok { ignoreErrors := ignoreErrors, op := op, args := args } := by
  obtain ⟨taken, dropped⟩ := span_op plain args
  have enough : args.length ≤ (sftpCommand ignoreErrors op args).length := by
    have each : ∀ args : List Bytes, args.length ≤ (args.flatMap (space :: sftpQuote ·)).length := by
      intro args
      induction args with
      | nil => exact Nat.zero_le _
      | cons value args ih => simp only [flatMap_cons, length_append, length_cons]; omega
    have shorter := each args
    simp only [sftpCommand, length_append]
    omega
  have kept : skipSpaces (op ++ args.flatMap (space :: sftpQuote ·)) = op ++ args.flatMap (space :: sftpQuote ·) := by
    obtain ⟨first, others, rfl⟩ := exists_cons_of_ne_nil word
    exact skipSpaces_of_ne (ne_of_not_mem_cons plain).symm _
  have start : skipSpaces (sftpCommand ignoreErrors op args) = sftpCommand ignoreErrors op args := by
    cases ignoreErrors with
    | false => exact kept
    | true => exact skipSpaces_of_ne (by decide) _
  have signed : ((sftpCommand ignoreErrors op args).head? == some dash) = ignoreErrors := by
    cases ignoreErrors with
    | false => simpa [sftpCommand, head?_append_of_ne_nil _ word] using unsigned
    | true => simp [sftpCommand]
  have remaining : (if ignoreErrors = true then (sftpCommand ignoreErrors op args).drop 1
      else sftpCommand ignoreErrors op args) = op ++ args.flatMap (space :: sftpQuote ·) := by
    cases ignoreErrors with
    | false | true => simp [sftpCommand]
  rw [parseSftpCommand, start, signed, remaining, kept, taken, dropped, parseArguments_quoted args enough, if_neg word]
  rfl

/-- The command that removes a file whose name has a quote, ignoring a failure. -/
theorem parseSftpCommand_sftpCommand_rm :
    parseSftpCommand (sftpCommand true [114, 109] [[97, quote, backslash, space, 10], []]) =
      .ok { ignoreErrors := true, op := [114, 109], args := [[97, quote, backslash, space, 10], []] } :=
  parseSftpCommand_sftpCommand true _ _ (by decide) (by decide) (by decide)

end RoundTrip

end Teleno.Backup
