import GossipStore.Database.Receive
import GossipStore.Gossip.Network

set_option autoImplicit false

/-! # Handling frames

A frame from a peer is a greeting, a bundle or an acknowledgement. A frame that cannot be read, or
that the peer should not have sent, costs the peer its connection and nothing else. Frames reach a
database through its mailbox on a network; the first one from a replica opens a connection to it. -/

namespace GossipStore

namespace Database

variable {α : Type}

/-! ## One frame -/

/-- Accepts a greeting and sends the peer what it lacks. -/
def receiveGreeting (s : Surroundings) (db : Database α) (p : Peer) (greeting : Bytes) :
    Database α × Except DatabaseError Unit :=
  match ChainTracker.ofGreeting greeting with
  | .error e => (db.disconnect p.id, .error (.bundle e))
  | .ok tracker =>
    match p.greet s.now tracker with
    | (p, .error e) => ((db.setPeer p).disconnect p.id, .error (.gossip e))
    | (p, .ok ()) =>
      let o := p.catchUp (s.link p.id) db.store.index.bundleList
      (db.absorbOrDrop o, (o.result.mapError .gossip).map fun _ => ())

/-- The metadata that an acknowledgement stands for. -/
def ackedInfo (chain : ChainKey) (timestamp : Timestamp) : BundleInfo where
  timestamp
  medallion := chain.medallion
  chainStart := chain.chainStart
  priorTime := none
  comment := none

/-- Handles a frame from a connected peer. -/
def handleFrame (s : Surroundings) (db : Database α) (sender : PeerId) (frame : Bytes) :
    Database α × Except DatabaseError Unit :=
  match db.peers.get? sender with
  | none => (db, .error (.unknownPeer sender))
  | some p =>
    match Message.decode frame with
    | .error e => (db.disconnect sender, .error (.gossip (.invalidMessage e)))
    | .ok (.greeting greeting) => db.receiveGreeting s p greeting
    | .ok (.bundle bytes) =>
      let (db, result) := db.receive s bytes (some sender)
      (db, result.map fun _ => ())
    | .ok (.ack chain timestamp) => (db.setPeer (p.onAck (ackedInfo chain timestamp)), .ok ())

/-- Handles a frame from any replica. A replica that is no peer yet becomes one. What is wrong with
the frame itself is dealt with and not reported. -/
def dispatch (s : Surroundings) (db : Database α) (sender : PeerId) (frame : Bytes) :
    Database α × Except DatabaseError Unit :=
  if db.peers.contains sender then ((db.handleFrame s sender frame).1, .ok ())
  else
    match db.connect s sender with
    | (db, .error e) => (db, .error e)
    | (db, .ok _) => ((db.handleFrame s sender frame).1, .ok ())

/-! ## The mailbox -/

/-- Puts the messages that a database has sent into the mailboxes of a network. -/
def post (own : PeerId) (db : Database α) (net : Network) : Database α × Network :=
  let net := db.effects.sent.foldl (fun net e => net.deliver e.1 ⟨own, e.2.encode⟩) net
  ({ db with effects := { db.effects with sent := [] } }, net)

/-- More frames than a mailbox ever holds. -/
def pollLimit : Nat := 0x10000

/-- Handles the frames in the mailbox, at most a given number of them, and counts them. -/
def drain (own : PeerId) (s : Surroundings) : (limit : Nat) → Database α → Network → Nat →
    Database α × Network × Except DatabaseError Nat
  | 0, db, net, handled => (db, net, .ok handled)
  | limit + 1, db, net, handled =>
    match net.receive own with
    | (net, .closed) => (db, net, .error (.gossip (.transport .closed)))
    | (net, .nothing) => (db, net, .ok handled)
    | (net, .frame e) =>
      let (db, result) := db.dispatch { s with link := net.link } e.sender e.frame
      -- What was sent is delivered at once, since it may have gone to the own mailbox.
      let (db, net) := db.post own net
      match result with
      | .error e => (db, net, .error e)
      | .ok () => drain own s limit db net (handled + 1)

/-- Handles the frames in the mailbox until it is empty, and counts them. -/
def poll (own : PeerId) (s : Surroundings) (db : Database α) (net : Network) :
    Database α × Network × Except DatabaseError Nat :=
  if db.attached then drain own s pollLimit db net 0 else (db, net, .error .noTransport)

/-- When the last idle spell ends in a time span, if one does. Spells last as long as the settings
say. -/
def lastIdleEnd? (db : Database α) (start span : Nat) : Option Nat :=
  let spell := db.config.messageTimeout.toNat
  if spell = 0 ∨ span < spell then none else some (start + span / spell * spell)

/-- Handles frames for a span of time. Whenever none arrives for as long as the settings say, the
peers that have not greeted in time are dropped; the last time accounts for the earlier ones. -/
def run (own : PeerId) (s : Surroundings) (span : Nat) (db : Database α) (net : Network) :
    Database α × Network × Except DatabaseError Unit :=
  match db.poll own s net with
  | (db, net, .error e) => (db, net, .error e)
  | (db, net, .ok _) =>
    match db.lastIdleEnd? s.now span with
    | none => (db, net, .ok ())
    | some now => ((db.dropFailedHandshakes { s with now }).1, net, .ok ())

end Database

end GossipStore
