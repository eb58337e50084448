import Mathlib.Algebra.Ring.Nat
import Teleno.Library.Parsing
import Teleno.Protocol

/-! # The messages of the peer RPC protocol

Requests and responses are msgpack values one after the other: a map that names the service, and then the
arguments or the payload as one value of any kind. The reader takes bytes off the front of the input; when it needs
more than there are, the error says that the input was cut.
-/

namespace Teleno.P2p

open Library

/-- The bytes of a string literal. -/
def literal (string : String) : Bytes := string.toUTF8.data.toList

section Descriptors

def mpNil : UInt8 := 0xc0
def mpFalse : UInt8 := 0xc2
def mpTrue : UInt8 := 0xc3
def mpBin8 : UInt8 := 0xc4
def mpBin16 : UInt8 := 0xc5
def mpBin32 : UInt8 := 0xc6
def mpFloat32 : UInt8 := 0xca
def mpFloat64 : UInt8 := 0xcb
def mpUint8 : UInt8 := 0xcc
def mpUint16 : UInt8 := 0xcd
def mpUint32 : UInt8 := 0xce
def mpUint64 : UInt8 := 0xcf
def mpInt8 : UInt8 := 0xd0
def mpInt16 : UInt8 := 0xd1
def mpInt32 : UInt8 := 0xd2
def mpInt64 : UInt8 := 0xd3
def mpStr8 : UInt8 := 0xd9
def mpStr16 : UInt8 := 0xda
def mpStr32 : UInt8 := 0xdb
def mpArray16 : UInt8 := 0xdc
def mpArray32 : UInt8 := 0xdd
def mpMap16 : UInt8 := 0xde
def mpMap32 : UInt8 := 0xdf

end Descriptors

section Append

def appendU16 (value : ℕ) : Bytes := [(value >>> 8 &&& 0xff).toUInt8, (value &&& 0xff).toUInt8]

def appendU32 (value : ℕ) : Bytes :=
  [(value >>> 24 &&& 0xff).toUInt8, (value >>> 16 &&& 0xff).toUInt8, (value >>> 8 &&& 0xff).toUInt8,
    (value &&& 0xff).toUInt8]

def appendU64 (value : ℕ) : Bytes := appendU32 (value >>> 32 % 2 ^ 32) ++ appendU32 (value &&& 0xffffffff)

/-- The header of a map or an array: a descriptor with the size in it, or a descriptor and the size. -/
def appendCount (fixed : ℕ) (count16 count32 : UInt8) (size : ℕ) : Bytes :=
  if size < 16 then [(fixed ||| size).toUInt8]
  else if size ≤ 0xffff then count16 :: appendU16 (size % 2 ^ 16)
  else count32 :: appendU32 (size % 2 ^ 32)

def appendMapHeader (size : ℕ) : Bytes := appendCount 0x80 mpMap16 mpMap32 size

def appendArrayHeader (size : ℕ) : Bytes := appendCount 0x90 mpArray16 mpArray32 size

def appendRaw (value : Bytes) : Bytes :=
  (if value.length < 32 then [(0xa0 ||| value.length).toUInt8]
  else if value.length ≤ 0xffff then mpStr16 :: appendU16 (value.length % 2 ^ 16)
  else mpStr32 :: appendU32 (value.length % 2 ^ 32)) ++ value

def appendUint (value : ℕ) : Bytes :=
  if value ≤ 0x7f then [value.toUInt8]
  else if value ≤ 0xff then [mpUint8, value.toUInt8]
  else if value ≤ 0xffff then mpUint16 :: appendU16 (value % 2 ^ 16)
  else if value ≤ 0xffffffff then mpUint32 :: appendU32 (value % 2 ^ 32)
  else mpUint64 :: appendU64 value

def appendServiceId (service method : Bytes) : Bytes :=
  appendMapHeader 2 ++ (appendRaw (literal "Name") ++ (appendRaw service ++
    (appendRaw (literal "Method") ++ appendRaw method)))

end Append

/-- `DecodeError`. -/
structure DecodeError where
  message : String
  truncated : Bool
deriving DecidableEq

namespace DecodeError

def cut : DecodeError := ⟨"truncated msgpack object", true⟩

/-- The input was not wrong, but there is more to come. -/
def Short (e : DecodeError) : Prop := e.truncated = true

instance : DecidablePred Short := fun e => inferInstanceAs (Decidable (e.truncated = true))

end DecodeError

/-- A `Reader`, over the bytes from its position on. -/
abbrev Reader := Parser DecodeError UInt8

namespace Reader

def readByte : Reader UInt8 := do
  match ← get with
  | [] => throw .cut
  | b :: left =>
    set left
    pure b

/-- The bytes up to here, for a reader that has come from `before` to `after`. -/
def slice (before after : Bytes) : Bytes := before.take (before.length - after.length)

def byteAt (raw : Bytes) (index : ℕ) : ℕ := (raw.getD index 0).toNat

def readU16 : Reader ℕ := do
  let raw ← Parser.take .cut 2
  pure (byteAt raw 0 <<< 8 ||| byteAt raw 1)

def readU32 : Reader ℕ := do
  let raw ← Parser.take .cut 4
  pure (byteAt raw 0 <<< 24 ||| byteAt raw 1 <<< 16 ||| byteAt raw 2 <<< 8 ||| byteAt raw 3)

def readU64 : Reader ℕ := do
  let hi ← readU32
  let lo ← readU32
  pure (hi <<< 32 ||| lo)

def negative : DecodeError := ⟨"negative msgpack integer where unsigned integer was expected", false⟩

/-- A signed integer of this many bits, which must not be negative. -/
def readSigned (bits : ℕ) (read : Reader ℕ) : Reader ℕ := do
  let value ← read
  Exec.require (value < 2 ^ (bits - 1)) negative
  pure value

def readUint : Reader ℕ := do
  let b ← readByte
  if b ≤ 0x7f then pure b.toNat
  else if 0xe0 ≤ b then throw negative
  else if b = mpUint8 then UInt8.toNat <$> readByte
  else if b = mpUint16 then readU16
  else if b = mpUint32 then readU32
  else if b = mpUint64 then readU64
  else if b = mpInt8 then readSigned 8 (UInt8.toNat <$> readByte)
  else if b = mpInt16 then readSigned 16 readU16
  else if b = mpInt32 then readSigned 32 readU32
  else if b = mpInt64 then readSigned 64 readU64
  else throw ⟨"msgpack value is not an unsigned integer", false⟩

def readRawSize (b : UInt8) : Reader ℕ :=
  if b &&& 0xe0 = 0xa0 then pure (b &&& 0x1f).toNat
  else if b = mpStr8 ∨ b = mpBin8 then UInt8.toNat <$> readByte
  else if b = mpStr16 ∨ b = mpBin16 then readU16
  else if b = mpStr32 ∨ b = mpBin32 then readU32
  else throw ⟨"msgpack value is not raw/string data", false⟩

def readRaw : Reader Bytes := do
  let b ← readByte
  let size ← readRawSize b
  Parser.take .cut size

/-- The size of a map or an array, after its descriptor. -/
def readCount (fixed count16 count32 : UInt8) (otherwise : String) (b : UInt8) : Reader ℕ :=
  if b &&& 0xf0 = fixed then pure (b &&& 0x0f).toNat
  else if b = count16 then readU16
  else if b = count32 then readU32
  else throw ⟨otherwise, false⟩

def readMapSize : Reader ℕ := do
  let b ← readByte
  readCount 0x80 mpMap16 mpMap32 "msgpack value is not a map" b

def readArraySize : Reader ℕ := do
  let b ← readByte
  readCount 0x90 mpArray16 mpArray32 "msgpack value is not an array" b

/-- The number of bytes after the descriptor of a number. -/
def scalarWidth (b : UInt8) : Option ℕ :=
  if b = mpUint8 ∨ b = mpInt8 then some 1
  else if b = mpUint16 ∨ b = mpInt16 then some 2
  else if b = mpUint32 ∨ b = mpInt32 ∨ b = mpFloat32 then some 4
  else if b = mpUint64 ∨ b = mpInt64 ∨ b = mpFloat64 then some 8
  else none

/-- A value of one byte. -/
def IsSingle (b : UInt8) : Prop := b ≤ 0x7f ∨ 0xe0 ≤ b ∨ b = mpNil ∨ b = mpFalse ∨ b = mpTrue

def IsRaw (b : UInt8) : Prop :=
  b &&& 0xe0 = 0xa0 ∨ b = mpStr8 ∨ b = mpStr16 ∨ b = mpStr32 ∨ b = mpBin8 ∨ b = mpBin16 ∨ b = mpBin32

def IsArray (b : UInt8) : Prop := b &&& 0xf0 = 0x90 ∨ b = mpArray16 ∨ b = mpArray32

def IsMap (b : UInt8) : Prop := b &&& 0xf0 = 0x80 ∨ b = mpMap16 ∨ b = mpMap32

instance : DecidablePred IsSingle := fun _ => inferInstanceAs (Decidable (_ ∨ _))

instance : DecidablePred IsRaw := fun _ => inferInstanceAs (Decidable (_ ∨ _))

instance : DecidablePred IsArray := fun _ => inferInstanceAs (Decidable (_ ∨ _))

instance : DecidablePred IsMap := fun _ => inferInstanceAs (Decidable (_ ∨ _))

def advance (count : ℕ) : Reader Unit := do
  let _ ← Parser.take .cut count

/-- The recursion of `skip`. Every nested value starts at least one byte later, so with as many rounds as there are
bytes the rounds are used up only when there is nothing left to read. -/
def skipValue : ℕ → Reader Unit
  | 0 => throw .cut
  | rounds + 1 => do
    let b ← readByte
    if IsSingle b then pure ()
    else if IsRaw b then do
      let size ← readRawSize b
      advance size
    else if IsArray b then do
      let size ← readCount 0x90 mpArray16 mpArray32 "" b
      Parser.times (skipValue rounds) size
    else if IsMap b then do
      let size ← readCount 0x80 mpMap16 mpMap32 "" b
      Parser.times (do skipValue rounds; skipValue rounds) size
    else match scalarWidth b with
      | some width => advance width
      | none => throw ⟨"unsupported msgpack descriptor", false⟩

def skip : Reader Unit := do skipValue (← get).length

/-- The loop over the entries of a map. -/
def readEntries {α : Type} (entry : α → Bytes → Reader α) : ℕ → α → Reader α
  | 0, a => pure a
  | count + 1, a => do
    let key ← readRaw
    let a' ← entry a key
    readEntries entry count a'

/-- A map whose known entries are read into a record. -/
def readMap {α : Type} (entry : α → Bytes → Reader α) (start : α) : Reader α := do
  let size ← readMapSize
  readEntries entry size start

/-- An entry that is not known. -/
def skipEntry {α : Type} (a : α) : Reader α := do
  skip
  pure a

/-- Throw unless all of the input was read. -/
def done (message : String) : Reader Unit := do
  Exec.require (← get).isEmpty ⟨message, false⟩

/-- The value that a reader finds in the input. -/
def run {α : Type} (reader : Reader α) (raw : Bytes) : Except DecodeError α :=
  match reader raw with
  | .ok a _ => .ok a
  | .error e _ => .error e

end Reader

open Reader

structure ServiceID where
  name : Bytes := []
  method : Bytes := []
deriving DecidableEq

/-- The values of `ErrorType`; a peer may send others. -/
inductive ErrorType where
  | nonRpc
  | server
  | client
  | authorization
  | other (code : ℕ)
deriving DecidableEq

namespace ErrorType

def code : ErrorType → ℕ
  | nonRpc => 0
  | server => 1
  | client => 2
  | authorization => 3
  | other code => code

def ofCode (code : ℕ) : ErrorType :=
  if code = 0 then nonRpc else if code = 1 then server else if code = 2 then client
  else if code = 3 then authorization else other code

/-- A value of the enumeration or another value of its type `uint64_t`. -/
def Valid : ErrorType → Prop
  | other code => 3 < code ∧ code < 2 ^ 64
  | _ => True

end ErrorType

structure ResponseHeader where
  service : ServiceID := {}
  error : Bytes := []
  errType : ErrorType := .nonRpc
deriving DecidableEq

structure Response where
  header : ResponseHeader := {}
  payload : Bytes := []
deriving DecidableEq

structure DecodedRequest where
  service : ServiceID := {}
  args : Bytes := []
deriving DecidableEq

structure HeadBlockResponse where
  id : Bytes := []
  height : ℕ := 0
deriving DecidableEq

structure AncestorBlockIDRequest where
  parentId : Bytes := []
  childHeight : ℕ := 0
deriving DecidableEq

structure BlocksRequest where
  headBlockId : Bytes := []
  startBlockHeight : ℕ := 0
  numBlocks : ℕ := 0
deriving DecidableEq

section Encode

def encodeEmptyRequest : Bytes := appendMapHeader 0

def encodeGetAncestorBlockIdRequest (parentId : Bytes) (childHeight : ℕ) : Bytes :=
  appendMapHeader 2 ++ (appendRaw (literal "ParentID") ++ (appendRaw parentId ++
    (appendRaw (literal "ChildHeight") ++ appendUint childHeight)))

def encodeGetBlocksRequest (headBlockId : Bytes) (startBlockHeight numBlocks : ℕ) : Bytes :=
  appendMapHeader 3 ++ (appendRaw (literal "HeadBlockID") ++ (appendRaw headBlockId ++
    (appendRaw (literal "StartBlockHeight") ++ (appendUint startBlockHeight ++
      (appendRaw (literal "NumBlocks") ++ appendUint numBlocks)))))

def encodeIdResponse (id : Bytes) : Bytes :=
  appendMapHeader 1 ++ (appendRaw (literal "ID") ++ appendRaw id)

def encodeHeadBlockResponse (id : Bytes) (height : ℕ) : Bytes :=
  appendMapHeader 2 ++ (appendRaw (literal "ID") ++ (appendRaw id ++
    (appendRaw (literal "Height") ++ appendUint height)))

def encodeBlocksResponse (blockPayloads : List Bytes) : Bytes :=
  appendMapHeader 1 ++ (appendRaw (literal "Blocks") ++
    (appendArrayHeader blockPayloads.length ++ (blockPayloads.map appendRaw).flatten))

def encodeRequest (service method msgpackArgs : Bytes) : Bytes := appendServiceId service method ++ msgpackArgs

def encodeSuccessResponse (service : ServiceID) (msgpackPayload : Bytes) : Bytes :=
  appendMapHeader 1 ++ (appendRaw (literal "Service") ++ appendServiceId service.name service.method) ++ msgpackPayload

def encodeErrorResponse (service : ServiceID) (error : Bytes) (errType : ErrorType) : Bytes :=
  appendMapHeader 3 ++ (appendRaw (literal "Service") ++ (appendServiceId service.name service.method ++
    (appendRaw (literal "Error") ++ (appendRaw error ++
      (appendRaw (literal "ErrType") ++ appendUint errType.code))))) ++ [mpNil]

end Encode

section Decode

def readServiceId : Reader ServiceID := do
  let service ← readMap (fun service key => do
    if key = literal "Name" then pure { service with name := ← readRaw }
    else if key = literal "Method" then pure { service with method := ← readRaw }
    else skipEntry service) {}
  Exec.require (!(service.name.isEmpty || service.method.isEmpty)) ⟨"gorpc ServiceID is missing Name or Method", false⟩
  pure service

def readResponseHeader : Reader ResponseHeader :=
  readMap (fun header key => do
    if key = literal "Service" then pure { header with service := ← readServiceId }
    else if key = literal "Error" then pure { header with error := ← readRaw }
    else if key = literal "ErrType" then pure { header with errType := .ofCode (← readUint) }
    else skipEntry header) {}

/-- One value of any kind, as it stands in the input. -/
def readValue : Reader Bytes := do
  let before ← get
  skip
  let after ← get
  pure (slice before after)

def readRequest : Reader DecodedRequest := do
  let service ← readServiceId
  let args ← readValue
  pure { service := service, args := args }

def readResponse : Reader Response := do
  let header ← readResponseHeader
  let payload ← readValue
  pure { header := header, payload := payload }

def decodeRequest (raw : Bytes) : Except DecodeError DecodedRequest := readRequest.run raw

def decodeResponse (raw : Bytes) : Except DecodeError Response := readResponse.run raw

def decodeGetAncestorBlockIdRequest (payload : Bytes) : Except DecodeError AncestorBlockIDRequest :=
  Reader.run (do
    let request ← readMap (fun (request : AncestorBlockIDRequest) key => do
      if key = literal "ParentID" then pure { request with parentId := ← readRaw }
      else if key = literal "ChildHeight" then pure { request with childHeight := ← readUint }
      else skipEntry request) {}
    done "trailing bytes after GetAncestorBlockID request"
    pure request) payload

def readNumBlocks (request : BlocksRequest) : Reader BlocksRequest := do
  let numBlocks ← readUint
  Exec.require (numBlocks ≤ 0xffffffff) ⟨"GetBlocks NumBlocks exceeds uint32", false⟩
  pure { request with numBlocks := numBlocks }

def decodeGetBlocksRequest (payload : Bytes) : Except DecodeError BlocksRequest :=
  Reader.run (do
    let request ← readMap (fun (request : BlocksRequest) key => do
      if key = literal "HeadBlockID" then pure { request with headBlockId := ← readRaw }
      else if key = literal "StartBlockHeight" then pure { request with startBlockHeight := ← readUint }
      else if key = literal "NumBlocks" then readNumBlocks request
      else skipEntry request) {}
    done "trailing bytes after GetBlocks request"
    pure request) payload

def decodeIdResponse (payload : Bytes) : Except DecodeError Bytes :=
  Reader.run (do
    let id ← readMap (fun id key => do
      if key = literal "ID" then readRaw else skipEntry id) []
    done "trailing bytes after ID response"
    pure id) payload

def decodeHeadBlockResponse (payload : Bytes) : Except DecodeError HeadBlockResponse :=
  Reader.run (do
    let response ← readMap (fun (response : HeadBlockResponse) key => do
      if key = literal "ID" then pure { response with id := ← readRaw }
      else if key = literal "Height" then pure { response with height := ← readUint }
      else skipEntry response) {}
    done "trailing bytes after head block response"
    pure response) payload

/-- Read this many block payloads after the ones that were already read. -/
def readPayloads : ℕ → List Bytes → Reader (List Bytes)
  | 0, blocks => pure blocks
  | count + 1, blocks => do
    let block ← readRaw
    readPayloads count (blocks ++ [block])

def decodeBlocksResponse (payload : Bytes) : Except DecodeError (List Bytes) :=
  Reader.run (do
    let blocks ← readMap (fun blocks key => do
      if key = literal "Blocks" then do
        let count ← readArraySize
        readPayloads count blocks
      else skipEntry blocks) []
    done "trailing bytes after blocks response"
    pure blocks) payload

end Decode

end Teleno.P2p
