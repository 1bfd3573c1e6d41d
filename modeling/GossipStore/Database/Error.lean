import GossipStore.Gossip.Error

set_option autoImplicit false

/-! # What can go wrong in a database

The causes for which an operation of a database fails, each with its wording. -/

namespace GossipStore

/-- Why an operation of a database failed. -/
inductive DatabaseError where
  | bundle (cause : BundleError)
  | store (cause : StoreError)
  | gossip (cause : GossipError)
  /-- The database is not on a network. -/
  | noTransport
  /-- A frame came from a replica to which there is no connection. -/
  | unknownPeer (peer : PeerId)
deriving DecidableEq, Repr

/-- The wording of a failure of a database. -/
def DatabaseError.message : DatabaseError → String
  | .bundle cause => s!"core error: {cause.message}"
  | .store cause => s!"storage error: {cause.message}"
  | .gossip cause => s!"sync error: {cause.message}"
  | .noTransport => "no transport attached"
  | .unknownPeer peer => s!"unknown peer: {PeerId.text peer}"

/-- The name of the kind of a failure of a database. A cause is named after a dot. -/
def DatabaseError.kind : DatabaseError → String
  | .bundle cause => s!"Core.{cause.kind}"
  | .store cause => s!"Store.{cause.kind}"
  | .gossip cause => s!"Sync.{cause.kind}"
  | .noTransport => "NoTransport"
  | .unknownPeer _ => "UnknownPeer"

/-- Whether a bundle was refused because it does not fit its chain. -/
def DatabaseError.isChainViolation : DatabaseError → Bool
  | .store cause => cause.isChainViolation
  | _ => false

end GossipStore
