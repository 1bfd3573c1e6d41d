import GossipStore.Gossip.Network
import GossipStore.Gossip.Peer
import GossipStore.Index.Apply

set_option autoImplicit false

/-! # A peer on a bench

A single peer on a network, with a clock that moves only when it is told to or when somebody waits
for the greeting. What the peer sends is handed out and not delivered. -/

namespace GossipStore

/-- A peer, the network that it sends over, and the time in milliseconds. -/
structure Bench where
  peer : Peer
  network : Network
  now : Nat

namespace Bench

/-- A new peer for a replica, which is on the network. -/
def start (remote : PeerId) (timeout : Nat) : Bench where
  peer := .new 0 remote timeout 0
  network := (Network.create .empty 1).create remote
  now := 0

/-- The bench once the peer has noticed what time it is. -/
def expire (s : Bench) : Bench := { s with peer := s.peer.expire s.now }

/-- Lets time pass. -/
def advance (s : Bench) (ms : Nat) : Bench := { s with now := s.now + ms }

/-- Takes the replica off the network. -/
def disconnect (s : Bench) : Bench := { s with network := s.network.disconnect s.peer.id }

/-- Waits until the peer has greeted or can no longer greet in time. -/
def awaitGreeting (s : Bench) : Bench := { s with now := s.peer.settledAt s.now }.expire

/-- Runs an operation of the peer that sends, and hands out what it sends. -/
def sending {α : Type} (s : Bench) (f : Peer → Peer.Link → Peer.Outcome α) :
    Bench × List Message × Except GossipError α :=
  let o := f s.peer (s.network.link s.peer.id)
  ({ s with peer := o.peer }, o.sent, o.result)

/-- The bundles that an index holds once it was offered the given ones, in its order. -/
def storedBundles (bs : List Bundle) : List Bundle :=
  let add (ix : Index) (b : Bundle) : Index := match ix.add b with
    | .ok (ix, _) => ix
    | .error _ => ix
  (bs.foldl add (.empty true)).bundleList

end Bench

end GossipStore
