import GossipStore.Bundle.Error

set_option autoImplicit false

/-! # What can go wrong in a store

A store refuses bundles that do not continue their chain, questions about states it never had,
and logs that it cannot read back. -/

namespace GossipStore

/-- What is wrong with the data of a log. -/
inductive LogFault where
  /-- The bytes of a row are no bundle. -/
  | unreadable (seq : Nat) (cause : BundleError)
  /-- The chain of the bundle already covers it. -/
  | duplicate (seq : Nat)
deriving DecidableEq, Repr

/-- The wording of a log fault. -/
def LogFault.message : LogFault → String
  | .unreadable seq cause => s!"log entry {seq}: {cause.message}"
  | .duplicate seq => s!"log entry {seq} duplicates an earlier bundle"

/-- The text of a time that may be absent. -/
def priorText : Option Timestamp → String
  | none => "None"
  | some t => s!"Some({t})"

/-- Why a store operation failed. -/
inductive StoreError where
  /-- The bundle names another predecessor than the last bundle of its chain. -/
  | chainMismatch (medallion : Medallion) (chainStart timestamp : Timestamp)
    (priorTime : Option Timestamp) (seenThrough : Timestamp)
  /-- The bundle is not the first of its chain, and the chain is unknown. -/
  | missingChainStart (medallion : Medallion) (chainStart timestamp : Timestamp)
  | asOfOutOfRange (requested : UInt32) (available : Nat)
  | decode (cause : BundleError)
  /-- The log already has a bundle of this time and owner. -/
  | duplicateRow
  | invalidData (fault : LogFault)
  /-- The log was written by a later version. -/
  | newerSchema (version : Int) (supported : Nat)
  /-- The schema version of the log is no number of 32 bits. -/
  | unreadableSchema (version : Int)
deriving DecidableEq, Repr

/-- The wording of a store error. -/
def StoreError.message : StoreError → String
  | .chainMismatch medallion chainStart timestamp priorTime seenThrough =>
    s!"chain ({medallion}, {chainStart}) is at {seenThrough} but bundle {timestamp} "
      ++ s!"claims prior {priorText priorTime}"
  | .missingChainStart medallion chainStart timestamp =>
    s!"bundle {timestamp} extends unknown chain ({medallion}, {chainStart})"
  | .asOfOutOfRange requested available =>
    s!"asked for state {requested} bundles ago but only {available} are stored"
  | .decode cause => s!"decode error: {cause.message}"
  | .duplicateRow =>
    "database error: UNIQUE constraint failed: bundles.timestamp, bundles.medallion"
  | .invalidData fault => s!"invalid data: {fault.message}"
  | .newerSchema version supported =>
    s!"migration error: log was written by a newer version (schema {version}, "
      ++ s!"supported {supported})"
  | .unreadableSchema version => s!"database error: Integer {version} out of range at index 0"

/-- The name of the kind of a store error. A cause is named after a dot. -/
def StoreError.kind : StoreError → String
  | .chainMismatch .. => "ChainMismatch"
  | .missingChainStart .. => "MissingChainStart"
  | .asOfOutOfRange .. => "AsOfOutOfRange"
  | .decode cause => s!"Decode.{cause.kind}"
  | .duplicateRow | .unreadableSchema _ => "Database"
  | .invalidData _ => "InvalidData"
  | .newerSchema .. => "Migration"

/-- Whether the sender of a bundle broke the rules of its chain. -/
def StoreError.isChainViolation : StoreError → Bool
  | .chainMismatch .. | .missingChainStart .. => true
  | _ => false

end GossipStore
