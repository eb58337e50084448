import Teleno.P2p.RoundTrip

/-! # Where a message ends

A reader of the protocol that succeeds has taken bytes off the front of the input that no continuation can change,
and every shorter part of them is reported as cut. So a reader that adds what arrives to what it has, and tries
again for as long as the input is cut, stops at the last byte of the message.
-/

namespace Teleno.P2p

open Library Reader List

variable {α : Type}

/-- The number of bytes that a reader which succeeds has taken off the input. -/
def Reader.position (reader : Reader α) (raw : Bytes) : Option ℕ :=
  match reader raw with
  | .ok _ left => some (raw.length - left.length)
  | .error _ _ => none

/-- Whether the reader says that the input was cut. -/
def Reader.isCut (reader : Reader α) (raw : Bytes) : Bool :=
  match reader.run raw with
  | .ok _ => false
  | .error e => e.truncated

/-- Take more bytes of a stream to those that are there for as long as the input is cut. -/
def Reader.accumulate (reader : Reader α) : Bytes → Bytes → Bytes
  | raw, [] => raw
  | raw, b :: stream => if reader.isCut raw then reader.accumulate (raw ++ [b]) stream else raw

/-- The first `n` bytes of the input are a message of their own. -/
structure EndsAt (reader : Reader α) (raw : Bytes) (message : α) (n : ℕ) : Prop where
  extended : ∀ longer, raw.take n <+: longer → reader.run longer = .ok message ∧ reader.position longer = some n
  cut : ∀ start, start <+: raw.take n → start ≠ raw.take n → reader.isCut start = true
  accumulated : ∀ stream, raw.take n <+: stream → (reader.accumulate [] stream).length = n

/-- Whenever the reader succeeds, the bytes it took are a message of their own. -/
def SelfDelimiting (reader : Reader α) : Prop :=
  ∀ raw message n, reader.run raw = .ok message → reader.position raw = some n → EndsAt reader raw message n

section Ends

variable {reader : Reader α} {tokens raw rest : Bytes} {message : α}

section

variable (reads : Reads reader tokens message)

include reads

theorem isCut_of_parses (isStart : raw <+: tokens) (partly : raw ≠ tokens) : reader.isCut raw = true := by
  obtain ⟨e, asks, fails⟩ := run_of_throws (reads.awaits raw isStart partly)
  rw [Reader.isCut, fails]
  exact asks

theorem isCut_eq_false : reader.isCut tokens = false := by
  rw [Reader.isCut, run_of_parses reads]

/-- Bytes are added until the message is there, and no longer. -/
theorem accumulate_of_parses (missing : Bytes)
    (joined : raw ++ missing = tokens) (rest : Bytes) : reader.accumulate raw (missing ++ rest) = tokens := by
  induction missing generalizing raw with
  | nil =>
    rw [append_nil] at joined
    subst joined
    cases rest with
    | nil => rfl
    | cons b rest => exact if_neg (Bool.eq_false_iff.mp (isCut_eq_false reads))
  | cons b missing ih =>
    have partly : raw ≠ tokens := by
      rintro rfl
      exact absurd (append_right_eq_self.mp joined) (cons_ne_nil _ _)
    rw [cons_append, Reader.accumulate, if_pos (isCut_of_parses reads ⟨_, joined⟩ partly)]
    exact ih (by rw [append_assoc]; exact joined)

theorem endsAt_of_parses (rest : Bytes) : EndsAt reader (tokens ++ rest) message tokens.length := by
  constructor <;> rw [take_left]
  · rintro _ ⟨others, rfl⟩
    have consumes := reads.consumes others
    constructor
    · rw [Reader.run, consumes]
    · rw [Reader.position, consumes]
      simp
  · exact fun start => isCut_of_parses reads
  · rintro _ ⟨others, rfl⟩
    rw [accumulate_of_parses reads tokens rfl others]

end

theorem selfDelimiting_of_delimits (delimits : Delimits DecodeError.Short reader) : SelfDelimiting reader := by
  intro raw message n decoded position
  cases outcome : reader raw with
  | error e left =>
    rw [Reader.run, outcome] at decoded
    contradiction
  | ok found left =>
    rw [Reader.run, outcome] at decoded
    rw [Reader.position, outcome] at position
    obtain ⟨⟩ := decoded
    obtain ⟨⟩ := position
    obtain ⟨tokens, reads, rfl⟩ := delimits raw message left outcome
    rw [length_append, Nat.add_sub_cancel]
    exact endsAt_of_parses reads left

end Ends

section Readers

/-- The reader is self-delimiting. -/
abbrev Delimited (reader : Reader α) : Prop := Delimits DecodeError.Short reader

theorem delimits_readByte : Delimited readByte := by
  refine accepts_readByte.mono ?_
  rintro _ b rfl
  exact parses_readByte b

theorem delimits_take (count : ℕ) : Delimited (Parser.take DecodeError.cut count : Reader Bytes) :=
  have asks : DecodeError.Short .cut := rfl
  .take asks count

theorem delimits_readU16 : Delimited readU16 := (delimits_take 2).bind fun _ => .pure _

theorem delimits_readU32 : Delimited readU32 := (delimits_take 4).bind fun _ => .pure _

theorem delimits_readU64 : Delimited readU64 :=
  delimits_readU32.bind fun _ => delimits_readU32.bind fun _ => .pure _

theorem delimits_readSigned (bits : ℕ) {read : Reader ℕ} (reads : Delimited read) : Delimited (readSigned bits read) :=
  reads.bind fun value => .require (.pure value)

theorem delimits_readUint : Delimited readUint := by
  refine delimits_readByte.bind fun b => ?_
  have oneByte := delimits_readByte.map UInt8.toNat
  split_ifs
  · exact .pure _
  · exact .throw _
  · exact oneByte
  · exact delimits_readU16
  · exact delimits_readU32
  · exact delimits_readU64
  · exact delimits_readSigned 8 oneByte
  · exact delimits_readSigned 16 delimits_readU16
  · exact delimits_readSigned 32 delimits_readU32
  · exact delimits_readSigned 64 delimits_readU64
  · exact .throw _

theorem delimits_readRaw : Delimited readRaw := by
  refine delimits_readByte.bind fun b => Delimits.bind ?_ delimits_take
  exact (accepts_readRawSize b).mono fun _ _ => parses_readRawSize

theorem delimits_readMapSize : Delimited readMapSize :=
  delimits_readByte.bind fun b =>
    (accepts_readCount map_marks _ b).mono fun _ _ header => parses_readCount map_marks header _

theorem delimits_skipEntry (a : α) : Delimited (skipEntry a) := by
  refine Delimits.bind ?_ fun _ => .pure a
  exact accepts_skip.mono fun _ _ => parses_skip

theorem delimits_readEntries {entry : α → Bytes → Reader α} (each : ∀ a key, Delimited (entry a key)) (count : ℕ)
    (a : α) : Delimited (readEntries entry count a) := by
  induction count generalizing a with
  | zero => exact .pure a
  | succ count ih => exact delimits_readRaw.bind fun key => (each a key).bind ih

theorem delimits_readMap {entry : α → Bytes → Reader α} (each : ∀ a key, Delimited (entry a key))
    (start : α) : Delimited (readMap entry start) :=
  delimits_readMapSize.bind fun count => delimits_readEntries each count start

theorem delimits_readValue : Delimited readValue := by
  refine accepts_readValue.mono ?_
  rintro _ _ ⟨isValue, rfl⟩
  exact parses_readValue isValue

theorem delimits_readServiceId : Delimited readServiceId := by
  refine (delimits_readMap (fun service key => ?_) _).bind fun service => .require (.pure service)
  split_ifs
  · exact delimits_readRaw.bind fun _ => .pure _
  · exact delimits_readRaw.bind fun _ => .pure _
  · exact delimits_skipEntry service

theorem delimits_readResponseHeader : Delimited readResponseHeader := by
  refine delimits_readMap (fun header key => ?_) _
  split_ifs
  · exact delimits_readServiceId.bind fun _ => .pure _
  · exact delimits_readRaw.bind fun _ => .pure _
  · exact delimits_readUint.bind fun _ => .pure _
  · exact delimits_skipEntry header

end Readers

/-- Requests and responses are messages of their own wherever they are found at the start of the input. -/
theorem messages_selfDelimiting : SelfDelimiting readRequest ∧ SelfDelimiting readResponse := by
  constructor
  · apply selfDelimiting_of_delimits
    exact delimits_readServiceId.bind fun _ => delimits_readValue.bind fun _ => .pure _
  · apply selfDelimiting_of_delimits
    exact delimits_readResponseHeader.bind fun _ => delimits_readValue.bind fun _ => .pure _

end Teleno.P2p
