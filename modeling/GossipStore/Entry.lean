import GossipStore.Behavior
import GossipStore.StorageKey

set_option autoImplicit false

/-! # Stored records

What a store keeps of the changes it has applied, with every relative address resolved. An entry
has an identity, the change that made it, and a placement, the change that put it where it is.
Both are the same until the entry is moved. -/

namespace GossipStore

/-- An entry at its place in a container. -/
structure Entry where
  behavior : Behavior
  container : Muid
  /-- The change that made the entry. -/
  entryId : Muid
  key : StorageKey
  pointee : Option Muid
  value : Option Bytes
  /-- Whether the entry says that nothing is here. -/
  deletion : Bool
  /-- The change that put the entry in this place. -/
  placement : Muid
  pair : Option (Muid × Muid)
deriving DecidableEq, Repr

namespace Entry

/-- When the entry was put in its place. -/
def placedAt (e : Entry) : Timestamp := e.placement.timestamp

/-- The first member of the pair. -/
def source (e : Entry) : Option Muid := e.pair.map Prod.fst

/-- The second member of the pair. -/
def target (e : Entry) : Option Muid := e.pair.map Prod.snd

end Entry

/-- The record that a placement was taken away or replaced. -/
structure Removal where
  /-- The placement that is no more. -/
  removing : Muid
  /-- The movement or entry that took it away. -/
  removalId : Muid
  container : Muid
  /-- The position the entry went to, or zero. -/
  dest : Timestamp
  entryId : Muid
deriving DecidableEq, Repr

/-- The record that a container was cleared. -/
structure Clearance where
  container : Muid
  clearanceId : Muid
  purging : Bool
deriving DecidableEq, Repr

/-- A moment at which a store is asked about. -/
inductive AsOf where
  /-- After all that is stored. -/
  | latest
  /-- After all that was placed up to a time. -/
  | time (t : Timestamp)
  /-- Before the given number of most recent bundles. -/
  | bundlesAgo (n : UInt32)
deriving DecidableEq, Repr

end GossipStore
