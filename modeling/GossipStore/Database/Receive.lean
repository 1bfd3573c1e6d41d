import GossipStore.Database.Basic

set_option autoImplicit false

/-! # Taking in bundles

Every bundle, whoever wrote it, goes through `Database.receiveDecoded`. Only one that the store
accepts as new is tracked, acknowledged, passed on to the other peers and shown to listeners. A
peer that sends what cannot be read or breaks a chain is dropped. -/

namespace GossipStore

namespace Database

variable {α : Type}

/-! ## After a bundle has been stored -/

/-- Records that a bundle has been stored. -/
def track (db : Database α) (info : BundleInfo) : Database α :=
  let m := db.tracker.markUnchecked info
  { db with
    tracker := m.tracker
    effects := { db.effects with reached := db.effects.reached ++ m.reached } }

/-- Tells the peer from which a bundle came that it has arrived. -/
def acknowledge (s : Surroundings) (db : Database α) (info : BundleInfo) (sender : PeerId) :
    Database α :=
  match db.peers.get? sender with
  | none => db
  | some p => db.absorbOrDrop ((p.onReceived info).sendAck (s.link sender) info)

/-- Offers a bundle to a peer, which is dropped if sending fails. -/
def offerTo (s : Surroundings) (b : Bundle) (db : Database α) (id : PeerId) : Database α :=
  match db.peers.get? id with
  | none => db
  | some p => db.absorbOrDrop (p.offer (s.link id) b)

/-- The replicas to pass a bundle on to: all but the one from which it came. -/
def peersExcept (db : Database α) (sender : Option PeerId) : List PeerId :=
  db.peers.keys.filter fun id => sender ≠ some id

/-- Offers a bundle to all peers but the one from which it came. -/
def passOn (s : Surroundings) (db : Database α) (b : Bundle) (sender : Option PeerId) :
    Database α :=
  (db.peersExcept sender).foldl (offerTo s b) db

/-- Calls the listeners for a bundle. -/
def notify (db : Database α) (b : Bundle) (remote : Bool) : Database α :=
  let called := (db.listeners.matching b remote).map (·, b)
  { db with effects := { db.effects with called := db.effects.called ++ called } }

/-! ## Storing a bundle -/

/-- Drops the peer from which something came, if it came from one. -/
def dropSender (db : Database α) : Option PeerId → Database α
  | none => db
  | some id => db.disconnect id

/-- Stores a bundle, from a peer or made here, and does all that follows if it is new. -/
def receiveDecoded (s : Surroundings) (db : Database α) (b : Bundle) (sender : Option PeerId) :
    Database α × Except DatabaseError BundleInfo :=
  match db.store.add b with
  | .error e =>
    (if e.isChainViolation then db.dropSender sender else db, .error (.store e))
  -- A bundle that is stored already is a success without consequences.
  | .ok (_, false) => (db, .ok b.info)
  | .ok (store, true) =>
    let db := { db with store }.track b.info
    let db := match sender with
      | none => db
      | some id => db.acknowledge s b.info id
    ((db.passOn s b sender).notify b sender.isSome, .ok b.info)

/-- Reads a bundle, from a peer or from elsewhere, and stores it. -/
def receive (s : Surroundings) (db : Database α) (bytes : Bytes) (sender : Option PeerId) :
    Database α × Except DatabaseError BundleInfo :=
  match Bundle.decode bytes with
  | .error e => (db.dropSender sender, .error (.bundle e))
  | .ok b => db.receiveDecoded s b sender

end Database

end GossipStore
