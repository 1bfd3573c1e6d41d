import GossipStore.Index.Query

set_option autoImplicit false

/-! # Adding bundles to an index

A bundle is checked against its chain first (`Index.check`), and only a bundle that directly
continues its chain is applied. Applying cannot fail, because the changes of a bundle have been
checked when it was made. Every change is applied as if it had arrived in the order of the
addresses: a change that an older arrival overrides has no effect. -/

namespace GossipStore

namespace Index

/-! ## Checking -/

/-- Whether a bundle is new. A bundle that leaves a gap in its chain or forks it is refused. -/
def check (ix : Index) (info : BundleInfo) : Except StoreError Bool :=
  match ix.chains.get? info.chain with
  | some prior =>
    if info.timestamp ≤ prior.timestamp then .ok false
    else if info.priorTime ≠ some prior.timestamp then
      .error (.chainMismatch info.medallion info.chainStart info.timestamp info.priorTime
        prior.timestamp)
    else .ok true
  | none =>
    if info.priorTime.isSome then
      .error (.missingChainStart info.medallion info.chainStart info.timestamp)
    else .ok true

/-! ## Entries -/

/-- The newest placement at a key of a container that is older than a change. -/
def previousAtKey? (ix : Index) (container : Muid) (key : StorageKey) (id : Muid) :
    Option Muid :=
  ((ix.placementsAtKey container key).filter (· < id)).getLast?

/-- Takes the placement before an entry away: with history it is recorded as removed, and without
it is dropped. -/
def supersede (ix : Index) (container previous id : Muid) : Index :=
  if ix.keepingHistory then
    ix.insertRemoval
      { removing := previous, removalId := id, container, dest := 0
        entryId := ((ix.entries.get? previous).map (·.entryId)).getD previous }
  else ix.deleteEntry previous

/-- The stored form of an entry that a bundle makes. -/
def entryOf (id : Muid) (c : EntryChange) : Entry where
  behavior := c.behavior
  container := c.containerId id.timestamp id.medallion
  entryId := id
  key := c.storageKey id.timestamp id.medallion
  pointee := c.pointee.map (·.resolve id.timestamp id.medallion)
  value := c.value
  deletion := c.deletion
  placement := id
  pair := c.resolvedPair id.timestamp id.medallion

/-- Puts an entry into its container, unless a newer clearance has purged that. -/
def applyEntry (ix : Index) (id : Muid) (c : EntryChange) : Index :=
  let e := entryOf id c
  if ix.isPurged e.container id then ix
  else
    -- Entries of ordered containers stand side by side, so they replace nothing.
    let previous := if e.behavior.isReplacing then ix.previousAtKey? e.container e.key id else none
    let ix := match previous with
      | some previous => ix.supersede e.container previous id
      | none => ix
    ix.insertEntry e

/-! ## Movements -/

/-- The newest placement of an entry that no removal has taken away. -/
def currentPlacement? (ix : Index) (entryId : Muid) : Option Muid :=
  ((ix.placementsOf entryId).filter fun p => !ix.isRemoved p Int64.maxValue).getLast?

/-- Moves an entry from the place where it is, or takes it away. A movement that is older than the
newest placement has no effect, nor has one of an entry that is not there. -/
def applyMovement (ix : Index) (id : Muid) (m : MovementChange) : Index :=
  let entryId := m.entry.resolve id.timestamp id.medallion
  if (ix.placementsOf entryId).getLast?.any (id < ·) then ix
  else match (ix.currentPlacement? entryId).bind ix.entries.get? with
    | none => ix
    | some found =>
      if ix.isPurged found.container id then ix
      else
        let container := (m.container.map (·.resolve id.timestamp id.medallion)).getD
          found.container
        -- The new placement comes first: the old one is still needed as its pattern.
        let placed :=
          if m.dest = 0 then ix
          else ix.insertEntry { found with key := .position m.dest, placement := id }
        if m.purge || !ix.keepingHistory then placed.deleteEntry found.placement
        else placed.insertRemoval
          { removing := found.placement, removalId := id, container, dest := m.dest, entryId }

/-! ## Clearances -/

/-- Drops the placements, removals and clearances of a container that are older than a
clearance. -/
def purgeContainer (ix : Index) (container clearanceId : Muid) : Index :=
  -- The rows are collected before anything is dropped.
  let placements := (ix.byKey.members.filter fun r =>
    r.container = container && r.placement < clearanceId).map (·.placement)
  let ix := placements.foldl deleteEntry ix
  let removals := (ix.removalsByContainer.members.filter fun r =>
    r.container = container && r.removing < clearanceId).map fun r =>
      (⟨r.removing, r.removalId⟩ : RemovalKey)
  let ix := removals.foldl deleteRemoval ix
  { ix with clearances := ix.clearances.filter fun k _ =>
      !(k.container = container && k.clearanceId < clearanceId) }

/-- Records a clearance, and if it purges drops what it hides. -/
def applyClearance (ix : Index) (id : Muid) (c : ClearanceChange) : Index :=
  let container := c.container.resolve id.timestamp id.medallion
  let ix := if c.purge then ix.purgeContainer container id else ix
  { ix with clearances := ix.clearances.insert ⟨container, id⟩ ⟨container, id, c.purge⟩ }

/-! ## Bundles -/

/-- Applies a change under its address. -/
def applyChange (ix : Index) (id : Muid) : Change → Index
  | .container behavior => { ix with containers := ix.containers.insert id behavior }
  | .entry e => ix.applyEntry id e
  | .movement m => ix.applyMovement id m
  | .clearance c => ix.applyClearance id c

/-- Applies a bundle that directly continues its chain. -/
def apply (ix : Index) (b : Bundle) : Index :=
  let ix := b.changesWithIds.foldl (fun ix e => ix.applyChange e.1 e.2) ix
  { ix with
    chains := ix.chains.insert b.info.chain b.info
    bundles := ix.bundles.insert ⟨b.info.timestamp, b.info.medallion⟩ b }

/-- Checks a bundle and applies it if it is new, which is the second result. -/
def add (ix : Index) (b : Bundle) : Except StoreError (Index × Bool) := do
  if ← ix.check b.info then return (ix.apply b, true) else return (ix, false)

end Index

end GossipStore
