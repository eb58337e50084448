import Teleno.P2p.RoundTrip

/-! # A peer RPC over streams that cut the bytes

The client writes the request once, the server reads once and answers with one write, and the client reads until the
response can be decoded. A stream may accept or return fewer bytes than it was asked for. The client's loop does not
depend on that, but the three single calls do.
-/

namespace Teleno.P2p

open Library Exec Reader List

/-- How one direction of a stream cuts the bytes: how many of the offered bytes `writeSome` accepts, and how many of
the bytes that were not read yet `readSome` has at hand. -/
structure Stream where
  accepts : Bytes → ℕ
  returns : Bytes → ℕ
  returns_pos : ∀ left, left ≠ [] → 0 < returns left

namespace Stream

def writeSome (stream : Stream) (offered : Bytes) : Bytes := offered.take (stream.accepts offered)

/-- The bytes that one read returns and those that are left. -/
def readSome (stream : Stream) (size : ℕ) (left : Bytes) : Bytes × Bytes :=
  left.splitAt (min size (stream.returns left))

theorem writeSome_start (stream : Stream) (offered : Bytes) : stream.writeSome offered <+: offered :=
  take_prefix _ _

theorem readSome_append (stream : Stream) (size : ℕ) (left : Bytes) :
    (stream.readSome size left).1 ++ (stream.readSome size left).2 = left := by
  rw [readSome, splitAt_eq, take_append_drop]

theorem readSome_length (stream : Stream) (size : ℕ) (left : Bytes) : (stream.readSome size left).1.length ≤ size := by
  rw [readSome, splitAt_eq, length_take]
  omega

theorem readSome_lt (stream : Stream) {size : ℕ} (positive : 0 < size) {left : Bytes} (some : left ≠ []) :
    (stream.readSome size left).2.length < left.length := by
  have returned := stream.returns_pos left some
  have length := length_pos_iff.mpr some
  rw [readSome, splitAt_eq, length_drop]
  omega

end Stream

/-- What a handler throws: an exception with its text, or something else. -/
inductive Raised where
  | exception (what : Bytes)
  | unknown
deriving DecidableEq

/-- The message that is sent for it. -/
def Raised.message : Raised → Bytes
  | exception what => what
  | unknown => literal "unknown peer RPC handler exception"

/-- `_on_peer_rpc_request`, by service, method and arguments. -/
abbrev Handler := Bytes → Bytes → Bytes → Except Raised Bytes

def readChunkSize : ℕ := 64 * 1024

def maxResponseSize : ℕ := 64 * 1024 * 1024

/-- The call of the handler that the server makes, if it does, and its response. -/
structure Served where
  call : Option DecodedRequest
  response : Bytes

def encodeOutcome (service : ServiceID) : Except Raised Bytes → Bytes
  | .ok payload => encodeSuccessResponse service payload
  | .error raised => encodeErrorResponse service raised.message .server

/-- `handle_incoming_rpc`, after its read has returned these bytes. -/
def handleIncomingRpc (onPeerRpcRequest : Option Handler) (raw : Bytes) : Served :=
  match decodeRequest raw with
  | .error e =>
    { call := none
      response := encodeErrorResponse { name := literal "unknown", method := literal "unknown" }
        (literal e.message) .server }
  | .ok request =>
    match onPeerRpcRequest with
    | none =>
      { call := none
        response := encodeOutcome request.service (.error (.exception (literal "peer RPC handler is not configured"))) }
    | some handler =>
      { call := some request
        response := encodeOutcome request.service (handler request.service.name request.service.method request.args) }

/-- What `send_peer_rpc` throws once the streams are open. -/
inductive RpcError where
  | closed
  | exceedsMaximumSize
  | decode (e : DecodeError)
  | peer (message : Bytes)
deriving DecidableEq

def RpcError.what : RpcError → Bytes
  | closed => literal "Peer RPC stream closed before complete response"
  | exceedsMaximumSize => literal "Peer RPC response exceeds maximum size"
  | decode e => literal e.message
  | peer message => literal "Peer RPC error: " ++ message

/-- The client's loop, with the bytes read so far and those still to come. Every read returns something while there
is something, so there are no more rounds than bytes. -/
def receive (down : Stream) : ℕ → Bytes → Bytes → Except RpcError Response
  | 0, _, _ => .error .closed
  | rounds + 1, responseRaw, left =>
    if left = [] then .error .closed
    else
      let raw := responseRaw ++ (down.readSome readChunkSize left).1
      match decodeResponse raw with
      | .ok response => .ok response
      | .error e =>
        if ¬ e.Short then .error (.decode e)
        else if maxResponseSize ≤ raw.length then .error .exceedsMaximumSize
        else receive down rounds raw (down.readSome readChunkSize left).2

/-- The payload of a response, or the error it carries. -/
def Response.outcome (response : Response) : Except RpcError Bytes :=
  if response.header.error ≠ [] then .error (.peer response.header.error) else .ok response.payload

/-- What the client gets from `send_peer_rpc`, and the call that the handler got. -/
structure Exchange where
  call : Option DecodedRequest
  result : Except RpcError Bytes

/-- `send_peer_rpc` to a server that runs `handle_incoming_rpc`. -/
def sendPeerRpc (up down : Stream) (onPeerRpcRequest : Option Handler) (service method msgpackArgs : Bytes) :
    Exchange :=
  let sent := up.writeSome (encodeRequest service method msgpackArgs)
  let served := handleIncomingRpc onPeerRpcRequest (up.readSome readChunkSize sent).1
  let replied := down.writeSome served.response
  { call := served.call
    result := receive down (replied.length + 1) [] replied >>= Response.outcome }

section Serve

theorem accepts_readRaw : Accepts (fun tokens value => value.length ≤ tokens.length) readRaw := by
  refine accepts_readByte.bind fun _ b _ => (accepts_readRawSize b).bind fun _ n _ => ?_
  refine Accepts.take.mono ?_
  rintro _ value ⟨rfl, -⟩
  simp only [length_append]
  omega

variable {α : Type} {raw : Bytes}

/-- Reading a map does not make a record larger than what was read. -/
theorem accepts_readEntries {entry : α → Bytes → Reader α} (size : α → ℕ)
    (bounded : ∀ a key, Accepts (fun tokens b => size b ≤ size a + tokens.length) (entry a key)) (count : ℕ) (a : α) :
    Accepts (fun tokens b => size b ≤ size a + tokens.length) (readEntries entry count a) := by
  induction count generalizing a with
  | zero => exact .pure (Nat.le_add_right _ _)
  | succ count ih =>
    refine accepts_readRaw.bind fun _ key _ => (bounded a key).bind fun _ b grows => (ih b).mono fun _ c more => ?_
    simp only [length_append]
    omega

theorem accepts_readMap {entry : α → Bytes → Reader α} (size : α → ℕ)
    (bounded : ∀ a key, Accepts (fun tokens b => size b ≤ size a + tokens.length) (entry a key)) (start : α) :
    Accepts (fun tokens b => size b ≤ size start + tokens.length) (readMap entry start) := by
  have sized : Accepts (fun _ _ => True) readMapSize :=
    accepts_readByte.bind fun _ b _ => (accepts_readCount map_marks _ b).mono fun _ _ _ => trivial
  refine sized.bind fun _ count _ => (accepts_readEntries size bounded count start).mono fun _ b bound => ?_
  rw [length_append]
  omega

/-- The size of both names. -/
def ServiceID.size (service : ServiceID) : ℕ := service.name.length + service.method.length

theorem accepts_readServiceId : Accepts (fun tokens service => service.name ≠ [] ∧ service.method ≠ [] ∧
    service.size ≤ tokens.length) readServiceId := by
  refine (accepts_readMap ServiceID.size ?_ {}).bind fun tokens service bound => .require fun given => .pure ?_
  · intro service key
    split_ifs
    case neg => exact accepts_skip.bind fun _ _ _ => .pure (Nat.le_add_right _ _)
    all_goals
      rw [bind_pure_comp]
      refine accepts_readRaw.map fun tokens name short => ?_
      simp only [ServiceID.size]
      omega
  · simp only [Bool.not_eq_true', Bool.or_eq_false_iff, isEmpty_eq_false_iff] at given
    have none : ({} : ServiceID).size = 0 := rfl
    rw [append_nil]
    exact ⟨given.1, given.2, by omega⟩

/-- A request that is decoded has both names, no longer than the input, and its arguments are a value. -/
theorem accepts_readRequest : Accepts (fun tokens request => request.service.name ≠ [] ∧ request.service.method ≠ [] ∧
    request.service.size ≤ tokens.length ∧ Value request.args) readRequest := by
  refine accepts_readServiceId.bind fun tokens service given => ?_
  rw [bind_pure_comp]
  refine accepts_readValue.map fun rest args isValue => ⟨given.1, given.2.1, ?_, isValue.2 ▸ isValue.1⟩
  rw [length_append]
  exact given.2.2.trans (Nat.le_add_right _ _)

theorem run_eq_ok {reader : Reader α} {a : α} (returns : reader.run raw = .ok a) : ∃ rest, reader raw = .ok a rest := by
  unfold Reader.run at returns
  cases outcome : reader raw with
  | ok b rest =>
    rw [outcome] at returns
    obtain ⟨⟩ := returns
    exact ⟨rest, rfl⟩
  | error e rest =>
    rw [outcome] at returns
    contradiction

/-- A payload that is decoded is a value. -/
theorem payload_value {response : Response} (decodes : decodeResponse raw = .ok response) : Value response.payload := by
  obtain ⟨rest, reads⟩ := run_eq_ok decodes
  obtain ⟨header, left, -, reads⟩ := bind_eq_ok reads
  obtain ⟨payload, left', readsValue, ends⟩ := bind_eq_ok reads
  obtain ⟨⟩ := ends
  obtain ⟨tokens, ⟨isValue, rfl⟩, -⟩ := accepts_readValue _ _ _ readsValue
  exact isValue

end Serve

section Receive

variable {down : Stream} {response : Bytes} {decoded : Response}

variable {rounds : ℕ} {raw left : Bytes}

/-- If all bytes of the response arrive, the loop ends with it, however they were cut. -/
theorem receive_whole (parses : Reads readResponse response decoded)
    (small : response.length < maxResponseSize) (enough : left.length < rounds)
    (some : left ≠ []) (whole : raw ++ left = response) : receive down rounds raw left = .ok decoded := by
  induction rounds generalizing raw left with
  | zero => exact absurd enough (Nat.not_lt_zero _)
  | succ rounds ih =>
    have shorter := down.readSome_lt (show 0 < readChunkSize by decide) some
    have split := down.readSome_append readChunkSize left
    rw [receive, if_neg some]
    generalize down.readSome readChunkSize left = piece at shorter split ⊢
    by_cases last : piece.2 = []
    · have all : raw ++ piece.1 = response := by rw [← whole, ← split, last, append_nil]
      have decodes : decodeResponse (raw ++ piece.1) = .ok decoded := run_of_parses (all ▸ parses)
      simp [decodes]
    · have rejoined : (raw ++ piece.1) ++ piece.2 = response := by rw [append_assoc, split, whole]
      have isStart : raw ++ piece.1 <+: response := ⟨piece.2, rejoined⟩
      have partly : raw ++ piece.1 ≠ response := by
        intro same
        rw [same] at rejoined
        exact last (append_right_eq_self.mp rejoined)
      obtain ⟨e, short, fails⟩ := run_of_throws (parses.awaits _ isStart partly)
      have notTooLong : ¬ maxResponseSize ≤ (raw ++ piece.1).length := by
        have le := isStart.length_le
        omega
      have decodes : decodeResponse (raw ++ piece.1) = .error e := fails
      simp only [decodes, not_not.mpr short, if_false, notTooLong]
      exact ih (by omega) last rejoined

/-- If some bytes of the response are missing, the loop ends without it. -/
theorem receive_partly (parses : Reads readResponse response decoded) (isStart : raw ++ left <+: response)
    (partly : raw ++ left ≠ response) :
    receive down rounds raw left = .error .closed ∨ receive down rounds raw left = .error .exceedsMaximumSize := by
  induction rounds generalizing raw left with
  | zero => exact .inl rfl
  | succ rounds ih =>
    by_cases none : left = []
    · rw [receive, if_pos none]
      exact .inl rfl
    · have split := down.readSome_append readChunkSize left
      rw [receive, if_neg none]
      generalize down.readSome readChunkSize left = piece at split ⊢
      have rejoined : (raw ++ piece.1) ++ piece.2 = raw ++ left := by rw [append_assoc, split]
      have isStart' : raw ++ piece.1 <+: response := (prefix_append _ piece.2).trans (rejoined ▸ isStart)
      have partly' : raw ++ piece.1 ≠ response := by
        intro same
        have le := isStart.length_le
        rw [← rejoined, same, length_append] at le
        have none' : piece.2 = [] := eq_nil_of_length_eq_zero (by omega)
        rw [none', append_nil, same] at rejoined
        exact partly rejoined.symm
      obtain ⟨e, short, fails⟩ := run_of_throws (parses.awaits _ isStart' partly')
      have decodes : decodeResponse (raw ++ piece.1) = .error e := fails
      simp only [decodes, not_not.mpr short, if_false]
      split_ifs
      · exact .inr rfl
      · exact ih (rejoined ▸ isStart) (rejoined ▸ partly)

/-- What the loop ends with was decoded. -/
theorem decodes_of_receive (returns : receive down rounds raw left = .ok decoded) :
    ∃ raw', decodeResponse raw' = .ok decoded := by
  induction rounds generalizing raw left with
  | zero => contradiction
  | succ rounds ih =>
    rw [receive] at returns
    split_ifs at returns with none
    generalize down.readSome readChunkSize left = piece at returns
    cases outcome : decodeResponse (raw ++ piece.1) with
    | ok other =>
      simp only [outcome] at returns
      obtain ⟨⟩ := returns
      exact ⟨_, outcome⟩
    | error e =>
      simp only [outcome] at returns
      split_ifs at returns
      exact ih returns

theorem receive_ne_peer {message : Bytes} : receive down rounds raw left ≠ .error (.peer message) := by
  intro err
  induction rounds generalizing raw left with
  | zero => cases err
  | succ rounds ih =>
    rw [receive] at err
    split_ifs at err with none
    · cases err
    generalize down.readSome readChunkSize left = piece at err
    cases outcome : decodeResponse (raw ++ piece.1) with
    | ok other =>
      simp only [outcome] at err
      cases err
    | error e =>
      simp only [outcome] at err
      split_ifs at err
      · cases err
      · exact ih err
      · cases err

/-- The client gets an answer of the handler only from a response. -/
theorem exists_decoded {outcome : Except Raised Bytes}
    (result : (receive down rounds raw left >>= Response.outcome) =
      outcome.mapError fun raised => .peer raised.message) :
    ∃ decoded, receive down rounds raw left = .ok decoded ∧
      decoded.outcome = outcome.mapError fun raised => .peer raised.message := by
  cases received : receive down rounds raw left with
  | ok decoded =>
    rw [received] at result
    exact ⟨decoded, rfl, result⟩
  | error e =>
    rw [received] at result
    cases outcome with
    | ok payload => contradiction
    | error raised =>
      obtain ⟨⟩ := result
      exact absurd received receive_ne_peer

end Receive

/-- The handler was called with this request, and the client gets what it returned or the error it raised. -/
structure Exchange.Answers (exchange : Exchange) (handler : Handler) (service method args : Bytes) : Prop where
  call : exchange.call = some { service := { name := service, method := method }, args := args }
  result : exchange.result = (handler service method args).mapError fun raised => .peer raised.message

/-- What a response can carry: a payload that is a value, or an error with a text. -/
def Presentable : Except Raised Bytes → Prop
  | .ok payload => Value payload
  | .error raised => raised.message ≠ []

/-- The server's one read returns all of the request. -/
def Stream.Delivers (up : Stream) (request : Bytes) : Prop :=
  (up.readSome readChunkSize (up.writeSome request)).1 = request

/-- The response to a request that was read as a whole. -/
def reply (handler : Handler) (service method args : Bytes) : Bytes :=
  encodeOutcome { name := service, method := method } (handler service method args)

section Answer

variable {up down : Stream} {handler : Handler} {service method args : Bytes}

theorem received_start (up : Stream) (request : Bytes) :
    (up.readSome readChunkSize (up.writeSome request)).1 <+: request := by
  refine .trans ⟨(up.readSome readChunkSize (up.writeSome request)).2, ?_⟩ (up.writeSome_start request)
  exact up.readSome_append _ _

variable {raw : Bytes} {id : ServiceID} {outcome : Except Raised Bytes}

theorem handleIncomingRpc_of_ok {request : DecodedRequest} (decodes : decodeRequest raw = .ok request) :
    handleIncomingRpc (some handler) raw = ⟨some request, encodeOutcome request.service
      (handler request.service.name request.service.method request.args)⟩ := by
  simp [handleIncomingRpc, decodes]

theorem decodes_of_call {request : DecodedRequest}
    (calls : (handleIncomingRpc (some handler) raw).call = some request) : decodeRequest raw = .ok request := by
  cases outcome : decodeRequest raw with
  | ok other =>
    rw [handleIncomingRpc_of_ok outcome] at calls
    rw [Option.some.inj calls]
  | error e =>
    simp only [handleIncomingRpc, outcome] at calls
    contradiction

theorem ServiceID.given_of_size (named : id.name ≠ []) (calls : id.method ≠ [])
    (short : id.size ≤ readChunkSize) : id.Given := by
  unfold ServiceID.size readChunkSize at short
  exact ⟨named, calls, by omega, by omega⟩

theorem size_le_encodeRequest (id : ServiceID) (args : Bytes) :
    id.size ≤ (encodeRequest id.name id.method args).length := by
  simp only [ServiceID.size, encodeRequest, appendServiceId, appendRaw, length_append]
  omega

theorem given_of_delivers (calls : service ≠ [] ∧ method ≠ [] ∧ up.Delivers (encodeRequest service method args)) :
    ServiceID.Given { name := service, method := method } := by
  obtain ⟨named, callsMethod, delivers⟩ := calls
  have short := up.readSome_length readChunkSize (up.writeSome (encodeRequest service method args))
  rw [delivers] at short
  exact ServiceID.given_of_size named callsMethod ((size_le_encodeRequest _ args).trans short)

/-- The server calls the handler with this request exactly if it is one and was read as a whole. -/
theorem handleIncomingRpc_call_iff (handler : Handler) (isValue : Value args) :
    (handleIncomingRpc (some handler) (up.readSome readChunkSize
      (up.writeSome (encodeRequest service method args))).1).call =
      some { service := { name := service, method := method }, args := args } ↔
    service ≠ [] ∧ method ≠ [] ∧ up.Delivers (encodeRequest service method args) := by
  have short := up.readSome_length readChunkSize (up.writeSome (encodeRequest service method args))
  constructor
  · intro calls
    have decodes := decodes_of_call calls
    obtain ⟨rest, reads⟩ := run_eq_ok decodes
    obtain ⟨tokens, ⟨named, callsMethod, bound, -⟩, split⟩ := accepts_readRequest _ _ _ reads
    refine ⟨named, callsMethod, ?_⟩
    by_contra partly
    have within : tokens.length ≤ readChunkSize := by
      rw [split, length_append] at short
      omega
    have given := ServiceID.given_of_size named callsMethod (bound.trans within)
    obtain ⟨e, -, fails⟩ := run_of_throws ((parses_readRequest given isValue).awaits _ (received_start up _) partly)
    rw [decodeRequest, fails] at decodes
    contradiction
  · intro calls
    have received : (up.readSome readChunkSize (up.writeSome (encodeRequest service method args))).1 = _ := calls.2.2
    rw [received, handleIncomingRpc_of_ok (run_of_parses (parses_readRequest (given_of_delivers calls) isValue))]

/-- A presentable outcome is read back by the client. -/
theorem parses_encodeOutcome (given : id.Given) (presentable : Presentable outcome)
    (small : (encodeOutcome id outcome).length < maxResponseSize) :
    ∃ decoded : Response, Reads readResponse (encodeOutcome id outcome) decoded ∧
      decoded.outcome = outcome.mapError fun raised => .peer raised.message := by
  cases outcome with
  | ok payload =>
    refine ⟨_, parses_readResponse (parses_readResponseHeader_success given.reads) presentable, ?_⟩
    rfl
  | error raised =>
    have short : raised.message.length < 2 ^ 32 := by
      simp only [encodeOutcome, encodeErrorResponse, appendRaw, length_append, maxResponseSize] at small
      omega
    have nil : Value [mpNil] := .single (by decide)
    refine ⟨_, parses_readResponse (parses_readResponseHeader_error given.reads short trivial) nil, ?_⟩
    exact if_pos presentable

theorem sendPeerRpc_of_call (down : Stream) (isValue : Value args)
    (calls : service ≠ [] ∧ method ≠ [] ∧ up.Delivers (encodeRequest service method args)) :
    sendPeerRpc up down (some handler) service method args =
      ⟨some { service := { name := service, method := method }, args := args },
        receive down ((down.writeSome (reply handler service method args)).length + 1) []
          (down.writeSome (reply handler service method args)) >>= Response.outcome⟩ := by
  have decodes := decodes_of_call ((handleIncomingRpc_call_iff handler isValue).mpr calls)
  simp only [sendPeerRpc, handleIncomingRpc_of_ok decodes]
  rfl

/-- What a response gave to the client can be carried. -/
theorem presentable_of_outcome {decoded : Response} (decodes : decodeResponse raw = .ok decoded)
    (same : decoded.outcome = outcome.mapError fun raised => .peer raised.message) : Presentable outcome := by
  unfold Response.outcome at same
  split_ifs at same with failed
  · cases outcome with
    | ok payload => cases same
    | error raised =>
      have message : decoded.header.error = raised.message := RpcError.peer.inj (Except.error.inj same)
      rwa [message] at failed
  · cases outcome with
    | ok payload =>
      cases same
      exact payload_value decodes
    | error raised => cases same

/-- The outcome of the handler reaches the client exactly if it can be carried and was written as a whole. -/
theorem receive_reply_iff (given : id.Given) (small : (encodeOutcome id outcome).length < maxResponseSize) :
    ((receive down ((down.writeSome (encodeOutcome id outcome)).length + 1) []
      (down.writeSome (encodeOutcome id outcome)) >>= Response.outcome) =
        outcome.mapError fun raised => .peer raised.message) ↔
      Presentable outcome ∧ down.writeSome (encodeOutcome id outcome) = encodeOutcome id outcome := by
  constructor
  · intro result
    obtain ⟨decoded, received, same⟩ := exists_decoded result
    obtain ⟨raw, decodes⟩ := decodes_of_receive received
    have presentable := presentable_of_outcome decodes same
    obtain ⟨decoded', parses, -⟩ := parses_encodeOutcome given presentable small
    refine ⟨presentable, ?_⟩
    by_contra partly
    have isStart : [] ++ down.writeSome (encodeOutcome id outcome) <+: encodeOutcome id outcome :=
      down.writeSome_start _
    rcases receive_partly parses isStart partly with fails | fails
    · rw [received] at fails
      contradiction
    · rw [received] at fails
      contradiction
  · rintro ⟨presentable, whole⟩
    obtain ⟨decoded, parses, same⟩ := parses_encodeOutcome given presentable small
    have some : encodeOutcome id outcome ≠ [] := by
      cases outcome <;> exact cons_ne_nil _ _
    rw [whole, receive_whole parses small (Nat.lt_succ_self _) some rfl]
    exact same

end Answer

/-- A peer RPC gives what the handler gives exactly if the names are given, the outcome can be carried, and the
three calls that are made once transfer all bytes. -/
theorem sendPeerRpc_answers_iff (up down : Stream) (handler : Handler) (service method args : Bytes)
    (isValue : Value args) (small : (reply handler service method args).length < maxResponseSize) :
    (sendPeerRpc up down (some handler) service method args).Answers handler service method args ↔
      (service ≠ [] ∧ method ≠ [] ∧ up.Delivers (encodeRequest service method args)) ∧
      Presentable (handler service method args) ∧
      down.writeSome (reply handler service method args) = reply handler service method args := by
  constructor
  · rintro ⟨call, result⟩
    have calls := (handleIncomingRpc_call_iff handler isValue).mp call
    rw [sendPeerRpc_of_call down isValue calls] at result
    exact ⟨calls, (receive_reply_iff (given_of_delivers calls) small).mp result⟩
  · rintro ⟨calls, carried⟩
    rw [sendPeerRpc_of_call down isValue calls]
    exact ⟨rfl, (receive_reply_iff (given_of_delivers calls) small).mpr carried⟩

/-- Streams that transfer everything at once. -/
def wholeStream : Stream where
  accepts offered := offered.length
  returns left := left.length
  returns_pos _ := List.length_pos_iff.mpr

/-- A stream that accepts one byte at a time. -/
def slowStream : Stream where
  accepts _ := 1
  returns left := left.length
  returns_pos _ := List.length_pos_iff.mpr

/-- A handler that returns its arguments. -/
def echo : Handler := fun _ _ args => .ok args

theorem sendPeerRpc_answers_iff_echo :
    (Value sampleArgs ∧ (reply echo sampleService.name sampleService.method sampleArgs).length < maxResponseSize) ∧
    (sendPeerRpc wholeStream wholeStream (some echo) sampleService.name sampleService.method sampleArgs).Answers echo
      sampleService.name sampleService.method sampleArgs := by
  have small : (reply echo sampleService.name sampleService.method sampleArgs).length < maxResponseSize := by decide
  refine ⟨⟨sampleArgs_value, small⟩, ?_⟩
  refine (sendPeerRpc_answers_iff wholeStream wholeStream echo _ _ _ sampleArgs_value small).mpr ?_
  exact ⟨⟨by decide, by decide, rfl⟩, sampleArgs_value, rfl⟩

/-- One byte of the request is written, and the handler is never called. -/
theorem cut_request_unanswered : Value sampleArgs ∧
    (reply echo sampleService.name sampleService.method sampleArgs).length < maxResponseSize ∧
    ¬ (sendPeerRpc slowStream wholeStream (some echo) sampleService.name sampleService.method sampleArgs).Answers echo
      sampleService.name sampleService.method sampleArgs := by
  refine ⟨sampleArgs_value, by decide, fun answers => ?_⟩
  have call := answers.call
  revert call
  decide

end Teleno.P2p
