import GossipStore.Cbor.Value

set_option autoImplicit false

/-! # Canonical writing

Each item has one canonical form: heads as short as possible, lengths always given, map entries
sorted by the bytes of their keys, and neither floating point numbers nor tags. -/

namespace GossipStore.Cbor

/-- Why an item has no canonical form. -/
inductive WriteError where
  | float
  | tag
  /-- A length does not fit into a head. -/
  | tooLong
deriving DecidableEq, Repr

/-- The wording of a write error. -/
def WriteError.message : WriteError → String
  | .float => "floats not supported in canonical encoding"
  | .tag => "unsupported CBOR value type"
  | .tooLong => "length does not fit into 64 bits"

/-- The head of an item: its major type and an argument below `2^64`, as short as possible. -/
def head (major n : Nat) : Bytes :=
  if n < 24 then [UInt8.ofNat (major * 32 + n)]
  else if n < 0x100 then UInt8.ofNat (major * 32 + 24) :: Bytes.ofNat 1 n
  else if n < 0x10000 then UInt8.ofNat (major * 32 + 25) :: Bytes.ofNat 2 n
  else if n < 0x100000000 then UInt8.ofNat (major * 32 + 26) :: Bytes.ofNat 4 n
  else UInt8.ofNat (major * 32 + 27) :: Bytes.ofNat 8 n

/-- The head of an item that gives a length. -/
def lengthHead (major n : Nat) : Except WriteError Bytes :=
  if n < 0x10000000000000000 then .ok (head major n) else .error .tooLong

/-- Places an entry under a written key before the first one whose key is not smaller. -/
def placeEntry {α : Type} (e : Bytes × α) : List (Bytes × α) → List (Bytes × α)
  | [] => [e]
  | f :: rest =>
    if (compare e.1 f.1).isLE then e :: f :: rest else f :: placeEntry e rest

/-- Entries in the order of their written keys; entries with one key keep their order. -/
def sortEntries {α : Type} (entries : List (Bytes × α)) : List (Bytes × α) :=
  entries.foldr placeEntry []

mutual

/-- The canonical form of an item. -/
def write : Value → Except WriteError Bytes
  | .unsigned n => .ok (head unsignedType n.toNat)
  | .negative n => .ok (head negativeType n.toNat)
  | .bytes b => return (← lengthHead bytesType b.length) ++ b
  | .text s => return (← lengthHead textType (Bytes.ofText s).length) ++ Bytes.ofText s
  | .array items => return (← lengthHead arrayType items.length) ++ (← writeItems items)
  | .map entries => do
    -- A key that cannot be written is complained about before any value, and values are written
    -- in the order of their keys.
    let keyed ← (writeEntries entries).mapM fun e => return (← e.1, e.2)
    let lengthBytes ← lengthHead mapType entries.length
    let written ← (sortEntries keyed).mapM fun e => return e.1 ++ (← e.2)
    return lengthBytes ++ written.flatten
  | .bool b => .ok [if b then 0xf5 else 0xf4]
  | .null => .ok [0xf6]
  | .float _ => .error .float
  | .tag _ _ => .error .tag

/-- The canonical forms of the items of an array, one after another. -/
def writeItems : List Value → Except WriteError Bytes
  | [] => .ok []
  | v :: rest => return (← write v) ++ (← writeItems rest)

/-- What writing the keys and the values of a map comes to. -/
def writeEntries :
    List (Value × Value) → List (Except WriteError Bytes × Except WriteError Bytes)
  | [] => []
  | (k, v) :: rest => (write k, write v) :: writeEntries rest

end

end GossipStore.Cbor
