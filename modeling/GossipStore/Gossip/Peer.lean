import GossipStore.ChainTracker
import GossipStore.Bundle.Basic
import GossipStore.Gossip.Error

set_option autoImplicit false

/-! # Peers

A peer is one connection to another replica, with what the other side is believed to have: its
*has-map*. A peer is `connecting` until the other side greets, and `failed` if it has not greeted
by a deadline. The has-map decides what is worth sending, so no bundle is sent twice and none ahead
of its predecessor; a bundle that comes too early is held back until its predecessor has gone out.

Time is given to every operation that depends on it, and so is the state of the link, which tells
what sending does at the moment. An operation returns the messages that it sends. -/

namespace GossipStore

/-- The state of a connection. -/
inductive PeerState where
  /-- The other side has not greeted yet. -/
  | connecting
  /-- The other side has greeted, and bundles flow. -/
  | ready
  /-- The other side has not greeted in time. -/
  | failed
  /-- The connection was closed on this side, and nothing is sent any more. -/
  | closed
deriving DecidableEq, Repr

/-- The name of a state. -/
def PeerState.name : PeerState → String
  | .connecting => "Connecting"
  | .ready => "Ready"
  | .failed => "Failed"
  | .closed => "Closed"

/-- A place on a chain. -/
structure ChainPoint where
  chain : ChainKey
  timestamp : Timestamp
deriving DecidableEq, Repr

/-- By chain, then age. -/
instance : Parted ChainPoint (ChainKey × Timestamp) where
  parts p := (p.chain, p.timestamp)

instance : Std.TransOrd ChainPoint := Parted.transOrd

instance : Std.LawfulEqOrd ChainPoint := Parted.lawfulEqOrd

/-- A connection to another replica. Times are in milliseconds. -/
structure Peer where
  /-- The number of the connection, which tells it from others to the same replica. -/
  serial : Nat
  id : PeerId
  /-- How long the other side has to greet. -/
  timeout : Nat
  deadline : Nat
  state : PeerState
  /-- What the other side has, once it has greeted. -/
  hasMap : Option ChainTracker
  /-- The bundles that wait for their predecessors. -/
  held : SortedMap ChainPoint Bundle
  /-- The latest bundle sent on each chain on which the other side has not acknowledged it. -/
  unacked : SortedMap ChainKey Timestamp
deriving DecidableEq

namespace Peer

/-- What sending to the other side does at the moment. -/
abbrev Link := Except GossipError Unit

/-- What an operation that may send returns. -/
structure Outcome (α : Type) where
  peer : Peer
  /-- The messages that were sent, in order. -/
  sent : List Message
  result : Except GossipError α

/-- A new connection. -/
def new (serial : Nat) (id : PeerId) (timeout now : Nat) : Peer where
  serial
  id
  timeout
  deadline := now + timeout
  state := .connecting
  hasMap := none
  held := .empty
  unacked := .empty

/-! ## The handshake -/

/-- Gives up waiting for the greeting if the deadline has passed. -/
def expire (p : Peer) (now : Nat) : Peer :=
  if p.state = .connecting ∧ p.deadline ≤ now then { p with state := .failed } else p

/-- The error of a peer that has not greeted in time. -/
def timeoutError (p : Peer) : GossipError := .handshakeTimeout p.id p.timeout

/-- Accepts the greeting of the other side, of which there is only one. -/
def greet (p : Peer) (now : Nat) (tracker : ChainTracker) : Peer × Except GossipError Unit :=
  let p := p.expire now
  match p.state with
  | .connecting => ({ p with hasMap := some tracker, state := .ready }, .ok ())
  | .ready => (p, .error (.duplicateGreeting p.id))
  | .closed => (p, .error (.peerClosed p.id))
  | .failed => (p, .error p.timeoutError)

/-- When a wait for the greeting that starts now is over, given that none comes. -/
def settledAt (p : Peer) (now : Nat) : Nat :=
  if p.state = .connecting then max now p.deadline else now

/-- What a wait for the greeting ends with. -/
def readiness (p : Peer) : Except GossipError Unit :=
  match p.state with
  | .ready => .ok ()
  | .closed => .error (.peerClosed p.id)
  | .connecting | .failed => .error p.timeoutError

/-! ## What the other side has -/

/-- How far the other side has seen a chain, if it is known. -/
def seenTo? (p : Peer) (chain : ChainKey) : Option Timestamp := p.hasMap.bind (·.seenTo? chain)

/-- Drops the held bundles of a chain that the other side has. -/
def prune (p : Peer) (chain : ChainKey) : Peer :=
  match p.seenTo? chain with
  | none => p
  | some seen =>
    { p with held := p.held.filter fun k _ => k.chain ≠ chain || seen < k.timestamp }

/-- Records that the other side has a bundle. -/
def onReceived (p : Peer) (info : BundleInfo) : Peer :=
  let hasMap := p.hasMap.map fun t => (t.markUnchecked info).tracker
  { p with hasMap }.prune info.chain

/-- Records that the other side has acknowledged a bundle. -/
def onAck (p : Peer) (info : BundleInfo) : Peer :=
  let p := p.onReceived info
  if (p.unacked.get? info.chain).any (· ≤ info.timestamp) then
    { p with unacked := p.unacked.erase info.chain }
  else p

/-- Whether a bundle was sent that is not acknowledged yet. -/
def hasUnacked (p : Peer) : Bool := !p.unacked.isEmpty

/-! ## Sending -/

/-- The messages that go out when one is sent. To a closed peer nothing goes out. -/
def transmit (p : Peer) (link : Link) (m : Message) : Except GossipError (List Message) :=
  if p.state = .closed then .ok [] else link.map fun _ => [m]

/-- Sends one message. -/
def sendMessage (p : Peer) (link : Link) (m : Message) : Outcome Unit :=
  match p.transmit link m with
  | .error e => ⟨p, [], .error e⟩
  | .ok sent => ⟨p, sent, .ok ()⟩

/-- Tells the other side that a bundle has arrived. -/
def sendAck (p : Peer) (link : Link) (info : BundleInfo) : Outcome Unit :=
  p.sendMessage link (.ackOf info)

/-- Sends a greeting. -/
def sendGreeting (p : Peer) (link : Link) (greeting : Bytes) : Outcome Unit :=
  p.sendMessage link (.greeting greeting)

/-- Notes that a bundle was sent. -/
def noteSent (p : Peer) (info : BundleInfo) : Peer :=
  let latest := match p.unacked.get? info.chain with
    | none => info.timestamp
    | some sent => max sent info.timestamp
  { p with unacked := p.unacked.insert info.chain latest }

/-- Holds a bundle back. -/
def hold (p : Peer) (b : Bundle) : Peer :=
  { p with held := p.held.insert ⟨b.info.chain, b.info.timestamp⟩ b }

/-- The held bundles of a chain, oldest first. -/
def heldOn (p : Peer) (chain : ChainKey) : List Bundle :=
  (p.held.filter fun k _ => k.chain = chain).values

/-- Drops the held bundles of a chain. -/
def releaseChain (p : Peer) (chain : ChainKey) : Peer :=
  { p with held := p.held.filter fun k _ => k.chain ≠ chain }

/-- Sends a bundle that directly continues what the other side has. -/
def sendBundle (p : Peer) (link : Link) (b : Bundle) : Outcome Unit :=
  match p.transmit link (.bundle b.bytes) with
  | .error e => ⟨p, [], .error e⟩
  | .ok sent => ⟨p.noteSent b.info, sent, .ok ()⟩

/-- Sends held bundles as long as each directly continues what the other side has, and holds the
others back again. -/
def flush (p : Peer) (link : Link) : List Bundle → Outcome Unit
  | [] => ⟨p, [], .ok ()⟩
  | b :: rest =>
    match p.hasMap with
    | none => ⟨(b :: rest).foldl hold p, [], .ok ()⟩
    | some tracker =>
      match tracker.mark b.info true with
      | .error _ => ⟨(b :: rest).foldl hold p, [], .ok ()⟩
      | .ok ⟨tracker, true, _⟩ =>
        let first := { p with hasMap := some tracker }.sendBundle link b
        match first.result with
        -- The bundle itself is not held again: the has-map already counts it as sent.
        | .error e => ⟨rest.foldl hold first.peer, first.sent, .error e⟩
        | .ok () =>
          let others := first.peer.flush link rest
          ⟨others.peer, first.sent ++ others.sent, others.result⟩
      | .ok ⟨_, false, _⟩ => p.flush link rest

/-- Sends the held bundles of a chain whose predecessors have gone out. -/
def flushChain (p : Peer) (link : Link) (chain : ChainKey) : Outcome Unit :=
  let p := p.prune chain
  (p.releaseChain chain).flush link (p.heldOn chain)

/-- Sends a bundle if the other side lacks it and has its predecessor, and tells whether it was
sent. A bundle that comes too early is held back, and before the greeting nothing is sent or
held. -/
def offer (p : Peer) (link : Link) (b : Bundle) : Outcome Bool :=
  match p.hasMap with
  | none => ⟨p, [], .ok false⟩
  | some tracker =>
    match tracker.mark b.info true with
    -- Its predecessor has not gone out yet.
    | .error _ => ⟨p.hold b, [], .ok false⟩
    -- The other side has it.
    | .ok ⟨_, false, _⟩ => ⟨p, [], .ok false⟩
    | .ok ⟨tracker, true, _⟩ =>
      let first := { p with hasMap := some tracker }.sendBundle link b
      match first.result with
      | .error e => ⟨first.peer, first.sent, .error e⟩
      | .ok () =>
        let others := first.peer.flushChain link b.info.chain
        ⟨others.peer, first.sent ++ others.sent, others.result.map fun _ => true⟩

/-- Offers bundles one after another, and counts those that were sent as they came. -/
def catchUp (p : Peer) (link : Link) : List Bundle → Outcome Nat
  | [] => ⟨p, [], .ok 0⟩
  | b :: rest =>
    let first := p.offer link b
    match first.result with
    | .error e => ⟨first.peer, first.sent, .error e⟩
    | .ok sent =>
      let others := first.peer.catchUp link rest
      ⟨others.peer, first.sent ++ others.sent, others.result.map (· + if sent then 1 else 0)⟩

/-! ## Closing -/

/-- Closes the connection. Nothing is sent any more. -/
def close (p : Peer) : Peer :=
  if p.state = .closed then p
  else { p with state := .closed, hasMap := none, held := .empty }

/-! ## Text form -/

/-- The text form of a peer. -/
def text (p : Peer) : String :=
  s!"Peer \x7b id: PeerId({p.id}), state: {p.state.name}, .. \x7d"

end Peer

end GossipStore
