import GossipStore.Bytes
import GossipStore.Muid

set_option autoImplicit false

/-! # Storage keys

The key under which a container holds an entry, with every relative address resolved. Keys are
ordered by kind and then by content, and a user's key by kind as well: numbers, then texts, then
byte strings. Texts compare by code point, which is the order of their UTF-8 bytes. -/

namespace GossipStore

/-! ## Keys that users choose -/

/-- A key that a user chooses in a keyed container. -/
inductive ScalarKey where
  | integer (n : Int64)
  | text (s : String)
  | bytes (b : Bytes)
deriving DecidableEq, Repr

namespace ScalarKey

/-- The place of the kind of key in the order. -/
def rank : ScalarKey → Nat
  | integer _ => 0
  | text _ => 1
  | bytes _ => 2

/-- The number of a numeric key, and zero of the others. -/
def integerPart : ScalarKey → Int64
  | integer n => n
  | _ => 0

/-- The text of a text key, and the empty text of the others. -/
def textPart : ScalarKey → String
  | text s => s
  | _ => ""

/-- The bytes of a byte key, and none of the others. -/
def bytesPart : ScalarKey → Bytes
  | bytes b => b
  | _ => []

/-- By kind, and then by content. -/
instance : Parted ScalarKey (Nat × Int64 × String × Bytes) where
  parts k := (k.rank, k.integerPart, k.textPart, k.bytesPart)
  parts_injective {k l} h := by
    cases k <;> cases l <;> simp_all [rank, integerPart, textPart, bytesPart]

instance : Std.TransOrd ScalarKey := Parted.transOrd

instance : Std.LawfulEqOrd ScalarKey := Parted.lawfulEqOrd

end ScalarKey

/-! ## Keys of entries -/

/-- The key of an entry within its container. -/
inductive StorageKey where
  /-- The one slot of a box or a vertex. -/
  | unit
  /-- The user's key in a directory or a key set. -/
  | scalar (key : ScalarKey)
  /-- The position in a sequence or of an edge. -/
  | position (place : Timestamp)
  /-- The container that a property or a group entry describes. -/
  | describing (subject : Muid)
  /-- The ordered pair of a pair set or a pair map. -/
  | pair (left right : Muid)
deriving DecidableEq, Repr

namespace StorageKey

/-- The least key. -/
def least : StorageKey := .unit

/-- The greatest key. -/
def greatest : StorageKey := .pair .greatest .greatest

/-- Whether the key is a position in an ordered container. -/
def isPositional : StorageKey → Bool
  | position _ => true
  | _ => false

/-- The place of the kind of key in the order. -/
def rank : StorageKey → Nat
  | unit => 0
  | scalar _ => 1
  | position _ => 2
  | describing _ => 3
  | pair _ _ => 4

/-- The user's key, and zero where there is none. -/
def scalarPart : StorageKey → ScalarKey
  | scalar key => key
  | _ => .integer 0

/-- The position, and zero where there is none. -/
def positionPart : StorageKey → Timestamp
  | position place => place
  | _ => 0

/-- The first address of the key, and the root where there is none. -/
def firstPart : StorageKey → Muid
  | describing subject => subject
  | pair left _ => left
  | _ => .root

/-- The second address of the key, and the root where there is none. -/
def secondPart : StorageKey → Muid
  | pair _ right => right
  | _ => .root

/-- By kind, and then by content. -/
instance : Parted StorageKey (Nat × ScalarKey × Timestamp × Muid × Muid) where
  parts k := (k.rank, k.scalarPart, k.positionPart, k.firstPart, k.secondPart)
  parts_injective {k l} h := by
    cases k <;> cases l <;> simp_all [rank, scalarPart, positionPart, firstPart, secondPart]

instance : Std.TransOrd StorageKey := Parted.transOrd

instance : Std.LawfulEqOrd StorageKey := Parted.lawfulEqOrd

end StorageKey

end GossipStore
