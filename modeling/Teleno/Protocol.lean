import Std.Data.ExtTreeMap.Lemmas
import Std.Data.ExtTreeSet.Lemmas
import Mathlib.Data.List.Sort

/-! # Shared protocol data

Byte strings stand for `std::string`, ordered bytewise. A multihash is kept in its serialized
form; hashing and Merkle tree construction come from the cryptography package and are parameters
(`Crypto`), as is the protobuf encoding of database keys (`KeyCodec`).
-/

namespace Teleno

/-- `std::string`, compared byte by byte. -/
abbrev Bytes := List UInt8

instance Bytes.lawfulBEq : LawfulBEq Bytes := inferInstance

/-- A serialized multihash: code, digest length, digest. -/
abbrev Multihash := Bytes

/-- `multihash::zero( sha2_256 )`. -/
def Multihash.zero : Multihash := 0x12 :: 0x20 :: List.replicate 32 0

/-- The fields of `protocol::block_header` that the modeled code reads. -/
structure BlockHeader where
  previous : Multihash := []
  height : ℕ := 0
  timestamp : ℕ := 0
  previousStateMerkleRoot : Bytes := []
  transactionMerkleRoot : Bytes := []
  signer : Bytes := []
deriving DecidableEq, Repr, Inhabited

/-- `chain::object_space`. -/
structure ObjectSpace where
  system : Bool := false
  zone : Bytes := []
  id : ℕ := 0
deriving DecidableEq, Repr, Inhabited

/-- `chain::database_key`. -/
structure DatabaseKey where
  space : ObjectSpace
  key : Bytes
deriving DecidableEq, Repr, Inhabited

/-- `protocol::state_delta_entry`; a removed object has no value. -/
structure StateDeltaEntry where
  objectSpace : ObjectSpace
  key : Bytes
  value : Option Bytes
deriving DecidableEq, Repr, Inhabited

/-- The cryptographic functions the state database calls. -/
structure Crypto where
  /-- `crypto::hash( multicodec::sha2_256, bytes )`. -/
  hash : Bytes → Multihash
  /-- `crypto::merkle_tree( multicodec::sha2_256, leaves ).root()->hash()`. -/
  merkleRoot : List Multihash → Multihash

/-- Hashing and Merkle roots without collisions. -/
structure Crypto.CollisionFree (crypto : Crypto) : Prop where
  hash_injective : Function.Injective crypto.hash
  merkleRoot_injective : Function.Injective crypto.merkleRoot

/-- The protobuf encoding of database keys: every serialized key parses back. -/
structure KeyCodec where
  serialize : DatabaseKey → Bytes
  parse : Bytes → Option DatabaseKey
  parse_serialize : ∀ key, parse (serialize key) = some key

/-- How a database key is written: the field of its space, then the field of its key. -/
structure WireFormat where
  spaceField : ObjectSpace → Bytes
  readSpace : Bytes → Option (ObjectSpace × Bytes)
  read_space : ∀ space rest, readSpace (spaceField space ++ rest) = some (space, rest)
  keyField : Bytes → Bytes
  readKey : Bytes → Option Bytes
  read_key : ∀ key, readKey (keyField key) = some key

def WireFormat.codec (format : WireFormat) : KeyCodec where
  serialize key := format.spaceField key.space ++ format.keyField key.key
  parse bytes := do
    let (space, rest) ← format.readSpace bytes
    let key ← format.readKey rest
    some ⟨space, key⟩
  parse_serialize key := by
    simp [format.read_space, format.read_key]

/-- Spell out a byte string so that it can be followed by anything: every byte is announced. -/
private def announce (bytes : Bytes) : Bytes := bytes.flatMap (fun byte => [1, byte]) ++ [0]

/-- Read an announced byte string and return what follows it. -/
private def readAnnounced : Bytes → Option (Bytes × Bytes)
  | 0 :: rest => some ([], rest)
  | 1 :: byte :: rest => (readAnnounced rest).map fun (bytes, rest) => (byte :: bytes, rest)
  | _ => none

private theorem readAnnounced_announce (bytes rest : Bytes) :
    readAnnounced (announce bytes ++ rest) = some (bytes, rest) := by
  induction bytes with
  | nil => rfl
  | cons byte bytes ih =>
    change (readAnnounced (announce bytes ++ rest)).map _ = _
    rw [ih]
    rfl

private theorem flatMap_announce_injective : Function.Injective (List.flatMap announce) := by
  intro left right same
  induction left generalizing right with
  | nil =>
    cases right with
    | nil => rfl
    | cons leaf rest => cases leaf <;> exact absurd same (List.cons_ne_nil _ _).symm
  | cons leaf rest ih =>
    cases right with
    | nil => cases leaf <;> exact absurd same (List.cons_ne_nil _ _)
    | cons leaf' rest' =>
      have read := congrArg readAnnounced same
      simp only [List.flatMap_cons, readAnnounced_announce, Option.some.injEq, Prod.mk.injEq] at read
      rw [read.1, ih read.2]

/-- Digests that spell out their input, an instance without collisions. -/
def Crypto.transparent : Crypto where
  hash := id
  merkleRoot := List.flatMap announce

theorem Crypto.transparent_collisionFree : Crypto.transparent.CollisionFree where
  hash_injective := Function.injective_id
  merkleRoot_injective := flatMap_announce_injective

/-- A format that announces every field of the space. -/
def WireFormat.transparent : WireFormat where
  spaceField space := announce [if space.system then 1 else 0] ++ (announce space.zone ++
    announce (List.replicate space.id 0))
  readSpace bytes := do
    let (system, bytes) ← readAnnounced bytes
    let (zone, bytes) ← readAnnounced bytes
    let (id, rest) ← readAnnounced bytes
    pure (⟨system = [1], zone, id.length⟩, rest)
  read_space := by
    rintro ⟨system, zone, id⟩ rest
    cases system <;> simp [readAnnounced_announce]
  keyField := id
  readKey := some
  read_key _ := rfl

def KeyCodec.transparent : KeyCodec := WireFormat.transparent.codec

/-- `std::map< std::string, std::string >`. -/
abbrev ObjectMap := Std.ExtTreeMap Bytes Bytes compare

/-- A set of object keys. -/
abbrev KeySet := Std.ExtTreeSet Bytes compare

/-- `std::sort` on byte strings. -/
def sortKeys (keys : List Bytes) : List Bytes :=
  keys.insertionSort (fun a b => (compare a b).isLE = true)

end Teleno
