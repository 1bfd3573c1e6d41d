import GossipStore.Index.Basic
import GossipStore.Store.Error

set_option autoImplicit false

/-! # Questions to an index

Every question is about a moment. What is visible at a moment is decided placement by placement
(`Index.isLive`): placed by then, not behind the latest clearance of the container by then, and
not removed by then. An answer lists the rows for the container, key or entry in question and
keeps those whose placement is visible. -/

namespace GossipStore

namespace Index

/-! ## Moments -/

/-- The latest time that is visible at a moment. -/
def resolveAsOf (ix : Index) : AsOf → Except StoreError Timestamp
  | .latest => .ok Int64.maxValue
  | .time t => .ok t
  | .bundlesAgo n =>
    if n = 0 then .ok Int64.maxValue
    else match ix.bundles.keys.reverse[n.toNat - 1]? with
      | some key => .ok (key.timestamp - 1)
      | none => .error (.asOfOutOfRange n ix.bundles.size)

/-! ## Visibility -/

/-- The latest clearance of a container up to a time. -/
def clearanceBefore? (ix : Index) (container : Muid) (asOf : Timestamp) : Option Muid :=
  ((ix.clearances.keys.filter fun k => k.container = container
    && k.clearanceId.timestamp ≤ asOf).getLast?).map (·.clearanceId)

/-- Whether a placement was removed up to a time. -/
def isRemoved (ix : Index) (placement : Muid) (asOf : Timestamp) : Bool :=
  ix.removals.keys.any fun k => k.removing = placement && k.removalId.timestamp ≤ asOf

/-- Whether a purging clearance of a container is newer than a change. -/
def isPurged (ix : Index) (container id : Muid) : Bool :=
  ix.clearances.toList.any fun e =>
    e.1.container = container && id < e.1.clearanceId && e.2.purging

/-- Whether the latest clearance up to a time hides an entry. -/
def isCleared (ix : Index) (e : Entry) (asOf : Timestamp) : Bool :=
  (ix.clearanceBefore? e.container asOf).any (e.placement < ·)

/-- Whether an entry is at its place at a time. A deletion is a placement like others. -/
def isLive (ix : Index) (e : Entry) (asOf : Timestamp) : Bool :=
  e.placedAt ≤ asOf && !ix.isCleared e asOf && !ix.isRemoved e.placement asOf

/-- Whether an entry is at its place at a time and says that something is there. -/
def isVisible (ix : Index) (e : Entry) (asOf : Timestamp) : Bool :=
  !e.deletion && ix.isLive e asOf

/-! ## Containers -/

/-- The behavior of a container. The root and the global containers need no definition. -/
def container? (ix : Index) (address : Muid) : Option Behavior :=
  if address = .root then some .directory
  else if address.timestamp = -1 ∧ address.medallion = -1 then
    if address.offset < 256 then Behavior.ofNumber? address.offset.toUInt8 else none
  else ix.containers.get? address

/-! ## Placements -/

/-- The placements at a key of a container, oldest first. -/
def placementsAtKey (ix : Index) (container : Muid) (key : StorageKey) : List Muid :=
  (ix.byKey.members.filter fun r => r.container = container && r.key = key).map (·.placement)

/-- The placements of an entry, oldest first. -/
def placementsOf (ix : Index) (entryId : Muid) : List Muid :=
  (ix.byLocation.members.filter (·.subject = entryId)).map (·.placement)

/-- The entries at the newest of some placements up to a time. -/
def newestUpTo? (ix : Index) (placements : List Muid) (asOf : Timestamp) : Option Entry :=
  ((placements.filter (·.timestamp ≤ asOf)).getLast?).bind ix.entries.get?

/-! ## Entries -/

/-- The entry at a key of a container. -/
def entryByKey (ix : Index) (container : Muid) (key : StorageKey) (asOf : AsOf) :
    Except StoreError (Option Entry) := do
  let t ← ix.resolveAsOf asOf
  return (ix.newestUpTo? (ix.placementsAtKey container key) t).filter (ix.isVisible · t)

/-- An entry at the place where it is. An entry that is a deletion is found as well. -/
def entryById (ix : Index) (entryId : Muid) (asOf : AsOf) : Except StoreError (Option Entry) := do
  let t ← ix.resolveAsOf asOf
  return (ix.newestUpTo? (ix.placementsOf entryId) t).filter (ix.isLive · t)

/-- Accounts for one row of a container: a live entry takes its key and a live deletion frees
it. -/
def keyedStep (ix : Index) (t : Timestamp) (acc : SortedMap StorageKey Entry) (r : KeyRow) :
    SortedMap StorageKey Entry :=
  match ix.entries.get? r.placement with
  | none => acc
  | some e =>
    if !ix.isLive e t then acc
    else if e.deletion then acc.erase r.key
    else acc.insert r.key e

/-- The entries of a keyed container by their keys. The rows of a key are read from the oldest to
the newest, so the newest live one decides. -/
def keyedEntries (ix : Index) (container : Muid) (asOf : AsOf) :
    Except StoreError (SortedMap StorageKey Entry) := do
  let t ← ix.resolveAsOf asOf
  let rows := ix.byKey.members.filter fun r => r.container = container && !r.key.isPositional
  return rows.foldl (ix.keyedStep t) .empty

/-- The visible entries of an ordered container by position, and by age within a position. -/
def positionalEntries (ix : Index) (container : Muid) (t : Timestamp) : List Entry :=
  let rows := ix.byKey.members.filter fun r => r.container = container && r.key.isPositional
  (rows.filterMap fun r => ix.entries.get? r.placement).filter (ix.isVisible · t)

/-- Cuts a list down to its first entries, or for a negative limit to its last ones, which then
come in reverse order. -/
def limited {α : Type} (limit : Option Int64) (l : List α) : List α :=
  match limit with
  | none => l
  | some n => if 0 ≤ n then l.take n.toInt.toNat else l.reverse.take n.toInt.natAbs

/-- The entries of an ordered container. -/
def orderedEntries (ix : Index) (container : Muid) (limit : Option Int64) (asOf : AsOf) :
    Except StoreError (List Entry) := do
  let t ← ix.resolveAsOf asOf
  return limited limit (ix.positionalEntries container t)

/-- A member of a pair. -/
inductive PairSide where
  | source
  | target
deriving DecidableEq, Repr

/-- The rows that lead to entries by one member of their pairs. -/
def pairRows (ix : Index) : PairSide → SortedSet PlacementRow
  | .source => ix.bySource
  | .target => ix.byTarget

/-- The entries with a vertex at one side of their pairs, oldest first. -/
def entriesTouching (ix : Index) (vertex : Muid) (side : PairSide) (asOf : AsOf) :
    Except StoreError (List Entry) := do
  let t ← ix.resolveAsOf asOf
  let rows := (ix.pairRows side).members.filter (·.subject = vertex)
  return (rows.filterMap fun r => ix.entries.get? r.placement).filter (ix.isVisible · t)

/-- All stored entries that point to an address, oldest first. -/
def backRefs (ix : Index) (target : Muid) : List Entry :=
  (ix.byPointee.members.filter (·.subject = target)).filterMap fun r => ix.entries.get? r.placement

end Index

end GossipStore
