import GossipStore.Data.Parted

set_option autoImplicit false

/-! # Addresses of changes

A muid names a change by the bundle that carries it (timestamp and medallion) and by its offset
in that bundle, counted from one. Muids are ordered by timestamp, then medallion, then offset, so
two chains that write in the same microsecond are still ordered, and every replica orders them
alike. Inside a bundle a zero timestamp or medallion stands for the enclosing bundle;
`Muid.resolve` fills it in. -/

namespace GossipStore

/-- Microseconds since the Unix epoch. -/
abbrev Timestamp := Int64

/-- The number that identifies the owner of a chain. -/
abbrev Medallion := Int64

/-- The address of a change. -/
structure Muid where
  timestamp : Timestamp
  medallion : Medallion
  offset : UInt32
deriving DecidableEq, Repr

namespace Muid

/-! ## Order -/

/-- Timestamp first, then medallion, then offset. -/
instance : Parted Muid (Timestamp × Medallion × UInt32) where
  parts m := (m.timestamp, m.medallion, m.offset)

instance : Std.TransOrd Muid := Parted.transOrd

instance : Std.LawfulEqOrd Muid := Parted.lawfulEqOrd

instance : LT Muid := ⟨fun a b => compare a b = .lt⟩

instance : LE Muid := ⟨fun a b => compare a b ≠ .gt⟩

instance : DecidableLT Muid := fun a b => inferInstanceAs (Decidable (compare a b = .lt))

instance : DecidableLE Muid := fun a b => inferInstanceAs (Decidable (compare a b ≠ .gt))

/-! ## Special addresses -/

/-- The root container, which belongs to no bundle. -/
def root : Muid := ⟨0, 0, 0⟩

/-- The least address. -/
def least : Muid := ⟨Int64.minValue, Int64.minValue, 0⟩

/-- The greatest address. -/
def greatest : Muid := ⟨Int64.maxValue, Int64.maxValue, 0xffffffff⟩

/-- The greatest address of a change made at or before a time. -/
def lastAt (t : Timestamp) : Muid := ⟨t, Int64.maxValue, 0xffffffff⟩

/-! ## Relative addresses -/

/-- Whether the address is to be read within the bundle that holds it. -/
def isRelative (m : Muid) : Bool := m.timestamp = 0 || m.medallion = 0

/-- Fills in a zero timestamp and a zero medallion from the enclosing bundle. -/
def resolve (m : Muid) (timestamp : Timestamp) (medallion : Medallion) : Muid where
  timestamp := if m.timestamp = 0 then timestamp else m.timestamp
  medallion := if m.medallion = 0 then medallion else m.medallion
  offset := m.offset

end Muid

end GossipStore
