import GossipStore.Bundle.Basic
import GossipStore.ChainTracker
import GossipStore.Config
import GossipStore.Index.Row

set_option autoImplicit false

/-! # The index

An index holds the accepted bundles and what they amount to: containers, entries at their places,
removals and clearances. Beside the table of entries stand tables of rows that lead to entries by
key, by identity, by pointee and by the members of a pair. This module holds the tables and the
four updates through which entries and removals come and go; each keeps the rows in step. -/

namespace GossipStore

/-- The record that an actor writes a chain. -/
structure ClaimedChain where
  chain : ChainKey
  actor : ActorId
deriving DecidableEq, Repr

/-- All that a store knows. -/
structure Index where
  /-- Whether what is replaced or removed stays stored for questions about the past. -/
  keepingHistory : Bool
  /-- The metadata of the latest bundle of each chain. -/
  chains : SortedMap ChainKey BundleInfo
  bundles : SortedMap BundleKey Bundle
  /-- The containers defined by changes. -/
  containers : SortedMap Muid Behavior
  /-- The entries by placement. -/
  entries : SortedMap Muid Entry
  byKey : SortedSet KeyRow
  /-- Placements by entry. -/
  byLocation : SortedSet PlacementRow
  byPointee : SortedSet PlacementRow
  bySource : SortedSet PlacementRow
  byTarget : SortedSet PlacementRow
  removals : SortedMap RemovalKey Removal
  removalsByContainer : SortedSet ContainerRemoval
  clearances : SortedMap ClearanceKey Clearance
  /-- The claims in the order in which they were made. -/
  claims : List ClaimedChain
deriving DecidableEq

namespace Index

/-- An index without bundles. -/
def empty (keepingHistory : Bool) : Index where
  keepingHistory
  chains := .empty
  bundles := .empty
  containers := .empty
  entries := .empty
  byKey := .empty
  byLocation := .empty
  byPointee := .empty
  bySource := .empty
  byTarget := .empty
  removals := .empty
  removalsByContainer := .empty
  clearances := .empty
  claims := []

instance : Inhabited Index := ⟨empty true⟩

/-! ## Rows of a record -/

/-- The row of an entry under its container and key. -/
def keyRow (e : Entry) : KeyRow := ⟨e.container, e.key, e.placement⟩

/-- The row of an entry under its identity. -/
def locationRow (e : Entry) : PlacementRow := ⟨e.entryId, e.placement⟩

/-- The row of an entry under an address that it may lack. -/
def rowUnder? (subject : Option Muid) (e : Entry) : Option PlacementRow :=
  subject.map (⟨·, e.placement⟩)

/-- The key of a removal. -/
def removalKey (r : Removal) : RemovalKey := ⟨r.removing, r.removalId⟩

/-- The row of a removal under its container. -/
def containerRemoval (r : Removal) : ContainerRemoval := ⟨r.container, r.removalId, r.removing⟩

/-- Adds a row if there is one. -/
def addRow? {κ : Type} [Ord κ] [Std.TransOrd κ] [Std.LawfulEqOrd κ] (s : SortedSet κ) :
    Option κ → SortedSet κ
  | none => s
  | some row => s.add row

/-- Removes a row if there is one. -/
def removeRow? {κ : Type} [Ord κ] (s : SortedSet κ) : Option κ → SortedSet κ
  | none => s
  | some row => s.remove row

/-! ## Updates -/

/-- Stores an entry at its placement, with its rows. -/
def insertEntry (ix : Index) (e : Entry) : Index :=
  { ix with
    entries := ix.entries.insert e.placement e
    byKey := ix.byKey.add (keyRow e)
    byLocation := ix.byLocation.add (locationRow e)
    byPointee := addRow? ix.byPointee (rowUnder? e.pointee e)
    bySource := addRow? ix.bySource (rowUnder? e.source e)
    byTarget := addRow? ix.byTarget (rowUnder? e.target e) }

/-- Drops the entry at a placement, with its rows. -/
def deleteEntry (ix : Index) (placement : Muid) : Index :=
  match ix.entries.get? placement with
  | none => ix
  | some e =>
    { ix with
      entries := ix.entries.erase placement
      byKey := ix.byKey.remove ⟨e.container, e.key, placement⟩
      byLocation := ix.byLocation.remove ⟨e.entryId, placement⟩
      byPointee := removeRow? ix.byPointee (e.pointee.map (⟨·, placement⟩))
      bySource := removeRow? ix.bySource (e.source.map (⟨·, placement⟩))
      byTarget := removeRow? ix.byTarget (e.target.map (⟨·, placement⟩)) }

/-- Stores a removal, with its row. -/
def insertRemoval (ix : Index) (r : Removal) : Index :=
  { ix with
    removals := ix.removals.insert (removalKey r) r
    removalsByContainer := ix.removalsByContainer.add (containerRemoval r) }

/-- Drops a removal, with its row. -/
def deleteRemoval (ix : Index) (key : RemovalKey) : Index :=
  match ix.removals.get? key with
  | none => ix
  | some r =>
    { ix with
      removals := ix.removals.erase key
      removalsByContainer :=
        ix.removalsByContainer.remove ⟨r.container, key.removalId, key.removing⟩ }

/-! ## What is stored -/

/-- The number of bundles. -/
def bundleCount (ix : Index) : Nat := ix.bundles.size

/-- The number of entries, at all places and times. -/
def entryCount (ix : Index) : Nat := ix.entries.size

/-- The number of removals. -/
def removalCount (ix : Index) : Nat := ix.removals.size

/-- The bundles in the order of their timestamps and owners. -/
def bundleList (ix : Index) : List Bundle := ix.bundles.values

/-- Whether a bundle of this time and owner is stored. -/
def hasBundle (ix : Index) (timestamp : Timestamp) (medallion : Medallion) : Bool :=
  ix.bundles.contains ⟨timestamp, medallion⟩

/-- A tracker that has seen the chains as far as the index has. -/
def chainTracker (ix : Index) : ChainTracker :=
  ix.chains.values.foldl (fun t info => (t.markUnchecked info).tracker) .empty

/-- The comment of the first bundle of a chain, which names its writer. -/
def chainIdentity (ix : Index) (chain : ChainKey) : Option String :=
  (ix.bundles.get? ⟨chain.chainStart, chain.medallion⟩).bind (·.info.comment)

/-! ## Claims -/

/-- Records that an actor writes a chain, in place of an earlier claim to it. -/
def claimChain (ix : Index) (chain : ChainKey) (actor : ActorId) : Index :=
  { ix with claims := ix.claims.filter (·.chain ≠ chain) ++ [⟨chain, actor⟩] }

end Index

end GossipStore
