import GossipStore.Index.Apply
import GossipStore.Index.History

set_option autoImplicit false

/-! # The log of a durable store

A log is what a durable store writes down: the accepted bundles in order, the claims in order, and
whether history is kept. Replaying a log into an empty index rebuilds what the store knew
(`Log.replay`). Rows are numbered from one, and the number of a deleted row is not used again. -/

namespace GossipStore

/-- A bundle as the log holds it. -/
structure LogRow where
  seq : Nat
  key : BundleKey
  chainStart : Timestamp
  bytes : Bytes
deriving DecidableEq, Repr

/-- The data of a log. -/
structure Log where
  /-- The bundles in the order in which they were appended. -/
  rows : List LogRow
  /-- The number of the next row. -/
  nextSeq : Nat
  claims : List ClaimedChain
  /-- Whether history is kept: not for zero, and otherwise it is. -/
  keepHistory : Option Int64
  schemaVersions : List Int
deriving DecidableEq, Repr

namespace Log

/-- The version of the layout that this library writes and understands. -/
def supportedVersion : Nat := 1

/-- A log without bundles and claims. -/
def empty : Log := ⟨[], 1, [], none, [supportedVersion]⟩

instance : Inhabited Log := ⟨empty⟩

/-! ## Writing -/

/-- Whether a row has the given time and owner. -/
def hasKey (l : Log) (key : BundleKey) : Bool := l.rows.any (·.key = key)

/-- Appends a row, unless there is one of the same time and owner. -/
def append? (l : Log) (key : BundleKey) (chainStart : Timestamp) (bytes : Bytes) : Option Log :=
  if l.hasKey key then none
  else some
    { l with rows := l.rows ++ [⟨l.nextSeq, key, chainStart, bytes⟩], nextSeq := l.nextSeq + 1 }

/-- Appends a bundle. -/
def appendBundle (l : Log) (b : Bundle) : Except StoreError Log :=
  match l.append? ⟨b.info.timestamp, b.info.medallion⟩ b.info.chainStart b.bytes with
  | some l => .ok l
  | none => .error .duplicateRow

/-- Deletes a row and tells how many there were. -/
def deleteRow (l : Log) (seq : Nat) : Log × Nat :=
  ({ l with rows := l.rows.filter (·.seq ≠ seq) }, (l.rows.filter (·.seq = seq)).length)

/-- Records that an actor writes a chain. -/
def appendClaim (l : Log) (claim : ClaimedChain) : Log := { l with claims := l.claims ++ [claim] }

/-- Sets whether history is kept. -/
def setKeepHistory (l : Log) (value : Int64) : Log := { l with keepHistory := some value }

/-- Notes a version of the layout and tells how many are new. -/
def addSchemaVersion (l : Log) (version : Int) : Log × Nat :=
  if l.schemaVersions.contains version then (l, 0)
  else ({ l with schemaVersions := l.schemaVersions ++ [version] }, 1)

/-! ## Replaying -/

/-- The latest version of the layout that the log mentions. -/
def schemaVersion (l : Log) : Int := l.schemaVersions.foldl max 0

/-- Refuses a log of a later version. -/
def checkSchema (l : Log) : Except StoreError Unit :=
  if 0x100000000 ≤ l.schemaVersion then .error (.unreadableSchema l.schemaVersion)
  else if supportedVersion < l.schemaVersion then
    .error (.newerSchema l.schemaVersion supportedVersion)
  else .ok ()

/-- Whether the log says that history is kept. -/
def keepsHistory (l : Log) : Bool := l.keepHistory.all (· ≠ 0)

/-- Adds the bundle of a row to an index. -/
def replayRow (ix : Index) (r : LogRow) : Except StoreError Index :=
  match Bundle.decode r.bytes with
  | .error e => .error (.invalidData (.unreadable r.seq e))
  | .ok b =>
    match ix.add b with
    | .error e => .error e
    | .ok (ix, true) => .ok ix
    | .ok (_, false) => .error (.invalidData (.duplicate r.seq))

/-- Adds the bundles of rows to an index, from first to last. -/
def replayRows (ix : Index) : List LogRow → Except StoreError Index
  | [] => .ok ix
  | r :: rest =>
    match replayRow ix r with
    | .error e => .error e
    | .ok ix => replayRows ix rest

/-- Repeats claims in an index, from first to last. -/
def replayClaims (ix : Index) (claims : List ClaimedChain) : Index :=
  claims.foldl (fun ix c => ix.claimChain c.chain c.actor) ix

/-- The index that a log describes. -/
def replay (l : Log) : Except StoreError Index := do
  l.checkSchema
  let ix ← replayRows (.empty l.keepsHistory) l.rows
  return replayClaims ix l.claims

end Log

end GossipStore
