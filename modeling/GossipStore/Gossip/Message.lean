import GossipStore.Bundle.Info

set_option autoImplicit false

/-! # Messages between replicas

A frame is a map with one entry, whose key names the kind of message. Bundles and greetings travel
as byte strings and are read by the receiver. Reading a frame looks at its first item only, and
takes any form of it, canonical or not. -/

namespace GossipStore

open Cbor (Value)

/-! ## Messages -/

/-- What one replica tells another. -/
inductive Message where
  /-- The bytes of a bundle. -/
  | bundle (bytes : Bytes)
  /-- The bytes of the greeting that describes the sender's chains. -/
  | greeting (bytes : Bytes)
  /-- The sender now has the bundle of a chain at a time. -/
  | ack (chain : ChainKey) (timestamp : Timestamp)
deriving DecidableEq, Repr

/-- Why a frame is not a message. -/
inductive MessageError where
  | unreadable (cause : Cbor.ReadError)
  | notMap
  | wrongEntryCount (count : Nat)
  /-- No message has this number, or its content is not of the right kind. -/
  | unknownKind (number : Option UInt64)
  | integerOutOfRange
  | notInteger
deriving DecidableEq, Repr

/-- The wording of a message error. -/
def MessageError.message : MessageError → String
  | .unreadable cause => cause.category
  | .notMap => "envelope is not a map"
  | .wrongEntryCount count => s!"envelope has {count} entries, expected 1"
  | .unknownKind none => "unrecognized message kind None"
  | .unknownKind (some number) => s!"unrecognized message kind Some({number})"
  | .integerOutOfRange => "integer out of range"
  | .notInteger => "expected integer"

namespace Message

/-- The number of the kind of a message in a frame. -/
def kind : Message → Nat
  | bundle _ => 1
  | greeting _ => 2
  | ack .. => 3

/-- The name of the kind of a message. -/
def kindName : Message → String
  | bundle _ => "bundle"
  | greeting _ => "greeting"
  | ack .. => "ack"

/-- Says that the sender has a bundle. -/
def ackOf (info : BundleInfo) : Message := ack info.chain info.timestamp

/-! ## Writing -/

/-- The bytes of a signed word. -/
def encodeInt (n : Int64) : Bytes :=
  match n.toInt with
  | .ofNat k => Cbor.head Cbor.unsignedType k
  | .negSucc k => Cbor.head Cbor.negativeType k

/-- The bytes of the content of a message. Their number must be below `2^64`, as it is for every
bundle. -/
def encodeContent : Message → Bytes
  | bundle b | greeting b => Cbor.head Cbor.bytesType b.length ++ b
  | ack chain timestamp =>
    Cbor.head Cbor.arrayType 3 ++ encodeInt chain.medallion ++ encodeInt chain.chainStart
      ++ encodeInt timestamp

/-- The frame of a message. -/
def encode (m : Message) : Bytes :=
  Cbor.head Cbor.mapType 1 ++ Cbor.head Cbor.unsignedType m.kind ++ m.encodeContent

/-! ## Reading -/

/-- The signed word that an item is. -/
def toInt64 (v : Value) : Except MessageError Int64 :=
  match v.toInt? with
  | none => .error .notInteger
  | some i =>
    if Int64.minValue.toInt ≤ i ∧ i ≤ Int64.maxValue.toInt then .ok (Int64.ofInt i)
    else .error .integerOutOfRange

/-- The number that names a kind of message. -/
def kindNumber? : Value → Option UInt64
  | .unsigned n => some n
  | _ => none

/-- The message that an entry of a frame is. -/
def ofEntry (key content : Value) : Except MessageError Message :=
  match kindNumber? key, content with
  | some 1, .bytes b => .ok (bundle b)
  | some 2, .bytes b => .ok (greeting b)
  | some 3, .array [medallion, chainStart, timestamp] =>
    return ack ⟨← toInt64 medallion, ← toInt64 chainStart⟩ (← toInt64 timestamp)
  | number, _ => .error (.unknownKind number)

/-- The message that an item is. -/
def ofValue : Value → Except MessageError Message
  | .map [(key, content)] => ofEntry key content
  | .map entries => .error (.wrongEntryCount entries.length)
  | _ => .error .notMap

/-- The message of a frame. -/
def decode (frame : Bytes) : Except MessageError Message := do
  ofValue (← (Cbor.read frame).mapError .unreadable)

end Message

end GossipStore
