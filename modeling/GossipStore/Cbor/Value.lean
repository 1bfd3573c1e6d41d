import GossipStore.Bytes

set_option autoImplicit false

/-! # Data items

The items of the binary format that bundles, greetings and messages are written in. Integers are
kept by major type, so that the type itself bounds them: `unsigned n` is `n` and `negative n` is
`-1 - n`, together the range from `-2^64` to `2^64 - 1`. Maps keep their entries in the order
read, repetitions included. -/

namespace GossipStore.Cbor

/-- A data item. -/
inductive Value where
  | unsigned (n : UInt64)
  | negative (n : UInt64)
  | bytes (b : Bytes)
  | text (s : String)
  | array (items : List Value)
  | map (entries : List (Value × Value))
  | bool (b : Bool)
  | null
  /-- A floating point number, by its big-endian bytes: the library computes with none. -/
  | float (b : Bytes)
  | tag (number : UInt64) (content : Value)
deriving Repr

namespace Value

/-- The item for a natural number below `2^64`. -/
def ofNat (n : Nat) : Value := .unsigned (UInt64.ofNat n)

/-- The item for an integer, which lies between `-2^64` and `2^64 - 1`. -/
def ofInt (i : Int) : Value :=
  match i with
  | .ofNat n => .unsigned (UInt64.ofNat n)
  | .negSucc n => .negative (UInt64.ofNat n)

/-- The integer that an item is, if it is one. -/
def toInt? : Value → Option Int
  | .unsigned n => some n.toNat
  | .negative n => some (-1 - n.toNat)
  | _ => none

/-- The value of the first entry whose key is the given number. -/
def lookup? (entries : List (Value × Value)) (key : Nat) : Option Value :=
  (entries.find? fun e => e.1.toInt? == some (key : Int)).map Prod.snd

end Value

/-! ## Major types -/

/-- The numbers of the eight major types. -/
def unsignedType : Nat := 0
/-- Negative integers. -/
def negativeType : Nat := 1
/-- Byte strings. -/
def bytesType : Nat := 2
/-- Text strings. -/
def textType : Nat := 3
/-- Arrays. -/
def arrayType : Nat := 4
/-- Maps. -/
def mapType : Nat := 5
/-- Tags. -/
def tagType : Nat := 6
/-- Simple values, floating point numbers and the break mark. -/
def simpleType : Nat := 7

/-- The byte that ends a string, array or map of indefinite length. -/
def breakByte : UInt8 := 0xff

end GossipStore.Cbor
