import GossipStore.Gossip.Message
import GossipStore.Store.Error
import GossipStore.Text.Duration
import GossipStore.Text.Hex

set_option autoImplicit false

/-! # What can go wrong between replicas

The causes for which talking to a peer fails, each with its wording. -/

namespace GossipStore

/-- The number by which a replica knows a peer. -/
abbrev PeerId := UInt64

/-- The text form of a peer's number. -/
def PeerId.text (id : PeerId) : String := Hex.ofUInt64 id

/-- Why frames do not get through. -/
inductive LinkFault where
  /-- Nobody receives at the other end. -/
  | peerGone
  /-- This end has been taken off the network. -/
  | closed
deriving DecidableEq, Repr

/-- The wording of a link fault. -/
def LinkFault.message : LinkFault → String
  | .peerGone => "peer disconnected"
  | .closed => "channel closed"

/-- Why talking to a peer failed. -/
inductive GossipError where
  /-- The peer has not greeted in time, which is given in milliseconds. -/
  | handshakeTimeout (peer : PeerId) (waited : Nat)
  | duplicateGreeting (peer : PeerId)
  | peerClosed (peer : PeerId)
  | peerNotConnected (peer : PeerId)
  | invalidMessage (cause : MessageError)
  | transport (fault : LinkFault)
  | store (cause : StoreError)
  | bundle (cause : BundleError)
deriving DecidableEq, Repr

/-- The wording of a failure between replicas. -/
def GossipError.message : GossipError → String
  | .handshakeTimeout peer waited =>
    s!"peer {PeerId.text peer} did not greet within {Duration.text waited}"
  | .duplicateGreeting peer => s!"peer {PeerId.text peer} already sent a greeting"
  | .peerClosed peer => s!"peer {PeerId.text peer} is closed"
  | .peerNotConnected peer => s!"peer not connected: {PeerId.text peer}"
  | .invalidMessage cause => s!"invalid message: {cause.message}"
  | .transport fault => s!"transport error: {fault.message}"
  | .store cause => s!"store error: {cause.message}"
  | .bundle cause => s!"core error: {cause.message}"

/-- The name of the kind of a failure between replicas. A cause is named after a dot. -/
def GossipError.kind : GossipError → String
  | .handshakeTimeout .. => "HandshakeTimeout"
  | .duplicateGreeting _ => "DuplicateGreeting"
  | .peerClosed _ => "PeerClosed"
  | .peerNotConnected _ => "PeerNotConnected"
  | .invalidMessage _ => "InvalidMessage"
  | .transport _ => "TransportError"
  | .store cause => s!"StoreError.{cause.kind}"
  | .bundle cause => s!"CoreError.{cause.kind}"

end GossipStore
