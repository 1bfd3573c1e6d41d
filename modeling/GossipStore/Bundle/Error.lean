import GossipStore.Behavior
import GossipStore.Cbor.Reader
import GossipStore.Cbor.Writer
import GossipStore.Muid.Text

set_option autoImplicit false

/-! # What can be wrong with a bundle

The causes for which building, reading or tracking bundles fails, each with its wording. -/

namespace GossipStore

/-! ## Metadata -/

/-- Why the metadata of a bundle contradicts itself. -/
inductive InfoError where
  | medallionNotPositive (medallion : Medallion)
  | timestampNotPositive
  | beforeChainStart (timestamp chainStart : Timestamp)
  /-- Only the first bundle of a chain may do without a prior time. -/
  | priorMissing (timestamp chainStart : Timestamp)
  | priorOutOfRange (prior timestamp : Timestamp)
deriving DecidableEq, Repr

/-- The wording of a metadata error. -/
def InfoError.message : InfoError → String
  | .medallionNotPositive medallion => s!"medallion must be positive, got {medallion}"
  | .timestampNotPositive => "timestamps must be positive"
  | .beforeChainStart timestamp chainStart =>
    s!"timestamp {timestamp} precedes chain start {chainStart}"
  | .priorMissing timestamp chainStart =>
    s!"bundle {timestamp} has no prior time but is not the chain start {chainStart}"
  | .priorOutOfRange prior timestamp =>
    s!"prior time {prior} out of range for bundle {timestamp}"

/-! ## Shape -/

/-- A field of a bundle, a change or an address. -/
inductive Field where
  | version
  | timestamp
  | medallion
  | chainStart
  | seenThrough
  | changes
  | changeKind
  | behavior
  | key
  | muidTimestamp
  | muidMedallion
  | muidOffset
  /-- A field that may be absent and that messages do not name. -/
  | optional
deriving DecidableEq, Repr

/-- The name of a field in messages. -/
def Field.name : Field → String
  | .version => "version"
  | .timestamp => "timestamp"
  | .medallion => "medallion"
  | .chainStart => "chain_start"
  | .seenThrough => "seen_through"
  | .changes => "changes"
  | .changeKind => "change kind"
  | .behavior => "behavior"
  | .key => "key"
  | .muidTimestamp => "muid timestamp"
  | .muidMedallion => "muid medallion"
  | .muidOffset => "muid offset"
  | .optional => "field"

/-- Why an item or a change is not part of a bundle. -/
inductive Malformation where
  /-- The entry lacks the key that its behavior asks for. -/
  | entryWithoutKey (behavior : Behavior)
  | deletionWithContent
  | movementOfRoot
  | bundleNotMap
  | changeNotMap
  | missing (field : Field)
  | outOfRange (field : Field)
  | notInteger (field : Field)
  | unsupportedVersion (version : UInt8)
  | unknownKind (kind : UInt8)
  | unknownBehavior (number : UInt8)
  | badComment
  | badMuid
  | badPair
  | badKey
  | badValue
  | badFlag
  | movementWithoutEntry
  | clearanceWithoutContainer
  /-- The bytes are not the canonical form of what they say. -/
  | notCanonical
deriving DecidableEq, Repr

/-- The wording of a malformation. -/
def Malformation.message : Malformation → String
  | .entryWithoutKey behavior => s!"{behavior.name} entry is missing its key"
  | .deletionWithContent => "deletion entries carry neither value nor pointee"
  | .movementOfRoot => "movement must name an entry"
  | .bundleNotMap => "expected bundle map"
  | .changeNotMap => "expected change map"
  | .missing field => s!"missing {field.name}"
  | .outOfRange field => s!"{field.name} out of range"
  | .notInteger field => s!"{field.name} must be an integer"
  | .unsupportedVersion version => s!"unsupported bundle version: {version}"
  | .unknownKind kind => s!"unknown change kind: {kind}"
  | .unknownBehavior number => s!"unknown behavior: {number}"
  | .badComment => "invalid comment"
  | .badMuid => "invalid muid"
  | .badPair => "invalid pair"
  | .badKey => "invalid key"
  | .badValue => "invalid value"
  | .badFlag => "flag must be a boolean"
  | .movementWithoutEntry => "movement without entry"
  | .clearanceWithoutContainer => "clearance without container"
  | .notCanonical => "non-canonical encoding"

/-- Why bytes are neither a bundle nor a greeting. -/
inductive DecodeError where
  | unreadable (cause : Cbor.ReadError)
  | greetingNotArray
  | badGreetingRow
deriving DecidableEq, Repr

/-- The wording of a decoding error. -/
def DecodeError.message : DecodeError → String
  | .unreadable cause => cause.category
  | .greetingNotArray => "greeting must be an array"
  | .badGreetingRow => "greeting row must have 3 integers"

/-! ## All causes -/

/-- Why building, reading or tracking a bundle failed. -/
inductive BundleError where
  | alreadySealed
  | notSealed
  | medallionMismatch (expected got : Medallion)
  /-- The bundle does not continue its chain where the tracker has seen it end. -/
  | invalidExtension (medallion : Medallion) (chainStart timestamp seenThrough : Timestamp)
  | invalidInfo (cause : InfoError)
  | malformedBundle (cause : Malformation)
  | malformedMuid (cause : Muid.ParseError)
  | encoding (cause : Cbor.WriteError)
  | decoding (cause : DecodeError)
  | timeout (medallion : Medallion) (timestamp : Timestamp)
  | waitAbandoned
deriving DecidableEq, Repr

/-- The wording of a bundle error. -/
def BundleError.message : BundleError → String
  | .alreadySealed => "bundler has already been sealed"
  | .notSealed => "bundler has not been sealed yet"
  | .medallionMismatch expected got =>
    s!"medallion mismatch: bundler pre-assigned {expected}, seal used {got}"
  | .invalidExtension medallion chainStart timestamp seenThrough =>
    s!"bundle {timestamp} is not a valid extension of chain ({medallion}, {chainStart}) "
      ++ s!"seen through {seenThrough}"
  | .invalidInfo cause => s!"invalid bundle info: {cause.message}"
  | .malformedBundle cause => s!"malformed bundle: {cause.message}"
  | .malformedMuid cause => s!"malformed muid: {cause.message}"
  | .encoding cause => s!"encoding error: {cause.message}"
  | .decoding cause => s!"decoding error: {cause.message}"
  | .timeout medallion timestamp => s!"timed out waiting for ({medallion}, {timestamp})"
  | .waitAbandoned => "chain tracker dropped before the wait resolved"

/-- The name of the kind of a bundle error. -/
def BundleError.kind : BundleError → String
  | .alreadySealed => "AlreadySealed"
  | .notSealed => "NotSealed"
  | .medallionMismatch .. => "MedallionMismatch"
  | .invalidExtension .. => "InvalidExtension"
  | .invalidInfo _ => "InvalidInfo"
  | .malformedBundle _ => "MalformedBundle"
  | .malformedMuid _ => "MalformedMuid"
  | .encoding _ => "Encoding"
  | .decoding _ => "Decoding"
  | .timeout .. => "Timeout"
  | .waitAbandoned => "WaitAbandoned"

end GossipStore
