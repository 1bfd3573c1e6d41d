import GossipStore.Index.Query

set_option autoImplicit false

/-! # Dropping history

What was removed stays in the index for questions about the past. Dropping the history up to a
moment deletes the placements that were removed by then, and the removals themselves. -/

namespace GossipStore

namespace Index

/-- The removals up to a time, of one container or of all. -/
def removalsUpTo (ix : Index) (container : Option Muid) (t : Timestamp) : List RemovalKey :=
  match container with
  | some container =>
    (ix.removalsByContainer.members.filter fun r =>
      r.container = container && r.removalId.timestamp ≤ t).map fun r => ⟨r.removing, r.removalId⟩
  | none => ix.removals.keys.filter fun k => k.removalId.timestamp ≤ t

/-- Deletes a removal and the placement that it removed. -/
def forget (ix : Index) (k : RemovalKey) : Index :=
  (ix.deleteEntry k.removing).deleteRemoval k

/-- Deletes what was removed up to a time, and tells how many removals there were. -/
def dropHistoryUpTo (ix : Index) (container : Option Muid) (t : Timestamp) : Index × Nat :=
  let doomed := ix.removalsUpTo container t
  (doomed.foldl forget ix, doomed.length)

/-- Deletes what was removed up to a moment, and tells how many removals there were. -/
def dropHistory (ix : Index) (container : Option Muid) (before : AsOf) :
    Except StoreError (Index × Nat) :=
  (ix.resolveAsOf before).map (ix.dropHistoryUpTo container)

/-- Stops keeping history and drops what has been kept. -/
def stopHistory (ix : Index) : Index :=
  ({ ix with keepingHistory := false }.dropHistoryUpTo none Int64.maxValue).1

/-- Keeps history from now on. -/
def startHistory (ix : Index) : Index := { ix with keepingHistory := true }

end Index

end GossipStore
