import GossipStore.Data.SortedMap
import GossipStore.Entry

set_option autoImplicit false

/-! # Rows of the index

The keys of the tables of an index. Each is ordered by its first part and then by the next, so the
rows about one container, key or entry stand together, the oldest first. -/

namespace GossipStore

/-- When and by whom a bundle was written. -/
structure BundleKey where
  timestamp : Timestamp
  medallion : Medallion
deriving DecidableEq, Repr

/-- Older bundles first. -/
instance : Parted BundleKey (Timestamp × Medallion) where
  parts k := (k.timestamp, k.medallion)

instance : Std.TransOrd BundleKey := Parted.transOrd

instance : Std.LawfulEqOrd BundleKey := Parted.lawfulEqOrd

/-- An entry under its container and key. -/
structure KeyRow where
  container : Muid
  key : StorageKey
  placement : Muid
deriving DecidableEq, Repr

/-- By container, then key, then age. -/
instance : Parted KeyRow (Muid × StorageKey × Muid) where
  parts r := (r.container, r.key, r.placement)

instance : Std.TransOrd KeyRow := Parted.transOrd

instance : Std.LawfulEqOrd KeyRow := Parted.lawfulEqOrd

/-- A placement under an address that it has to do with. -/
structure PlacementRow where
  subject : Muid
  placement : Muid
deriving DecidableEq, Repr

/-- By address, then age. -/
instance : Parted PlacementRow (Muid × Muid) where
  parts r := (r.subject, r.placement)

instance : Std.TransOrd PlacementRow := Parted.transOrd

instance : Std.LawfulEqOrd PlacementRow := Parted.lawfulEqOrd

/-- What takes a placement away. -/
structure RemovalKey where
  /-- The placement that is no more. -/
  removing : Muid
  removalId : Muid
deriving DecidableEq, Repr

/-- By placement, then age of the removal. -/
instance : Parted RemovalKey (Muid × Muid) where
  parts k := (k.removing, k.removalId)

instance : Std.TransOrd RemovalKey := Parted.transOrd

instance : Std.LawfulEqOrd RemovalKey := Parted.lawfulEqOrd

/-- A removal under its container. -/
structure ContainerRemoval where
  container : Muid
  removalId : Muid
  removing : Muid
deriving DecidableEq, Repr

/-- By container, then age of the removal. -/
instance : Parted ContainerRemoval (Muid × Muid × Muid) where
  parts r := (r.container, r.removalId, r.removing)

instance : Std.TransOrd ContainerRemoval := Parted.transOrd

instance : Std.LawfulEqOrd ContainerRemoval := Parted.lawfulEqOrd

/-- A clearance under its container. -/
structure ClearanceKey where
  container : Muid
  clearanceId : Muid
deriving DecidableEq, Repr

/-- By container, then age. -/
instance : Parted ClearanceKey (Muid × Muid) where
  parts k := (k.container, k.clearanceId)

instance : Std.TransOrd ClearanceKey := Parted.transOrd

instance : Std.LawfulEqOrd ClearanceKey := Parted.lawfulEqOrd

end GossipStore
