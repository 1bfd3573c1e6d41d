import GossipStore.Clock
import GossipStore.Database.Error
import GossipStore.Gossip.Peer
import GossipStore.Identity
import GossipStore.Listener
import GossipStore.Store.Basic

set_option autoImplicit false

/-! # Databases

A database writes bundles on a chain of its own, takes in bundles from others, passes on what is
new to its peers and tells its listeners. This module has its state and what goes on between it and
its peers; the operations that store bundles are in the modules beside it.

Whatever an operation reads from the outside is given to it as `Surroundings`, and whatever it does
to the outside is collected in the field `effects` until somebody carries it out. -/

namespace GossipStore

/-! ## The outside -/

/-- What the outside world looks like while an operation runs. -/
structure Surroundings where
  /-- The time by which deadlines are measured, in milliseconds. -/
  now : Nat
  /-- The reading of the clock. -/
  clock : Timestamp
  /-- What sending to a replica does. -/
  link : PeerId → Peer.Link
  /-- The medallions in the order in which they are given out. -/
  medallion : Nat → Medallion
  isAlive : ActorId → Bool
  environment : Environment
  /-- The actor that the database is if its settings name none. -/
  process : ActorId

/-- What a database has done to the outside. -/
structure Effects (α : Type) where
  /-- The messages sent, and to whom. -/
  sent : List (PeerId × Message)
  /-- The listeners called, and for which bundle. -/
  called : List (α × Bundle)
  /-- The tickets of the waits that were fulfilled. -/
  reached : List Nat
deriving DecidableEq

/-- Nothing done. -/
def Effects.none {α : Type} : Effects α := ⟨[], [], []⟩

/-! ## The state -/

/-- The state of a database whose listeners are known by labels. -/
structure Database (α : Type) where
  store : Store
  config : Config
  timestamps : TimestampSource
  /-- How many medallions were taken. -/
  medallionsUsed : Nat
  /-- Whether the database is on a network. -/
  attached : Bool
  /-- The last bundle of the database's own chain, once it has one. -/
  chain : Option BundleInfo
  /-- What the store has. -/
  tracker : ChainTracker
  /-- The connections by the replicas they lead to. -/
  peers : SortedMap PeerId Peer
  /-- The connections that were closed, oldest first. -/
  former : List Peer
  /-- How many connections were made. -/
  connections : Nat
  listeners : Listeners α
  effects : Effects α

namespace Database

variable {α : Type}

/-- Opens a database on a store. Without history in the settings, the store stops keeping it. -/
def ofStore (store : Store) (config : Config) (attached : Bool) : Database α :=
  let store := if config.keepHistory then store else store.stopHistory
  { store, config, attached
    timestamps := .new
    medallionsUsed := 0
    chain := none
    tracker := store.index.chainTracker
    peers := .empty
    former := []
    connections := 0
    listeners := .empty
    effects := .none }

/-- The actor that the database is. -/
def actor (db : Database α) (s : Surroundings) : ActorId := db.config.actorId.getD s.process

/-- The name under which the database starts chains. -/
def identity (db : Database α) (s : Surroundings) : String :=
  db.config.identity.getD s.environment.identity

/-- The chain to which the database appends, once it has one. -/
def claimedChain? (db : Database α) : Option ChainKey := db.chain.map (·.chain)

/-- Takes the effects out of a database. -/
def takeEffects (db : Database α) : Database α × Effects α :=
  ({ db with effects := .none }, db.effects)

/-! ## Connections -/

/-- Puts a connection into the table. -/
def setPeer (db : Database α) (p : Peer) : Database α :=
  { db with peers := db.peers.insert p.id p }

/-- Takes over what an operation of a peer has left and sent. -/
def absorb {β : Type} (db : Database α) (o : Peer.Outcome β) : Database α :=
  let sent := db.effects.sent ++ o.sent.map (o.peer.id, ·)
  { db.setPeer o.peer with effects := { db.effects with sent } }

/-- Closes the connection to a replica, if there is one. -/
def disconnect (db : Database α) (id : PeerId) : Database α :=
  match db.peers.get? id with
  | none => db
  | some p => { db with peers := db.peers.erase id, former := db.former ++ [p.close] }

/-- Takes over what an operation of a peer has left and sent, and drops the peer if it failed. -/
def absorbOrDrop {β : Type} (db : Database α) (o : Peer.Outcome β) : Database α :=
  match o.result with
  | .ok _ => db.absorb o
  | .error _ => (db.absorb o).disconnect o.peer.id

/-- Opens a connection to a replica, in place of an earlier one, and greets it. -/
def connect (s : Surroundings) (db : Database α) (id : PeerId) :
    Database α × Except DatabaseError PeerId :=
  if !db.attached then (db, .error .noTransport)
  else
    let peer := Peer.new db.connections id db.config.handshakeTimeout.toNat s.now
    -- An earlier connection to the replica is closed, whatever becomes of the new one.
    let db := { (db.disconnect id).setPeer peer with connections := db.connections + 1 }
    match db.tracker.greeting with
    | .error e => (db, .error (.bundle e))
    | .ok greeting =>
      let o := peer.sendGreeting (s.link id) greeting
      (db.absorbOrDrop o, (o.result.mapError .gossip).map fun _ => id)

/-- The replicas whose greetings are overdue. -/
def overdue (s : Surroundings) (db : Database α) : List PeerId :=
  (db.peers.filter fun _ p => (p.expire s.now).state = .failed).keys

/-- Drops the peers that have not greeted in time, and tells how many there were. -/
def dropFailedHandshakes (s : Surroundings) (db : Database α) : Database α × Nat :=
  ((db.overdue s).foldl disconnect db, (db.overdue s).length)

/-- Closes all connections. -/
def close (db : Database α) : Database α := db.peers.keys.foldl disconnect db

/-- A connection by its number, open or not. -/
def connection? (db : Database α) (serial : Nat) : Option Peer :=
  (db.peers.values ++ db.former).find? (·.serial = serial)

/-! ## Listeners and waits -/

/-- Registers a listener and hands out its number. -/
def addListener (db : Database α) (container : Option Muid) (remoteOnly : Bool) (label : α) :
    Database α × UInt64 :=
  let (listeners, id) := db.listeners.add container remoteOnly label
  ({ db with listeners }, id)

/-- Removes a listener and tells whether there was one. -/
def removeListener (db : Database α) (id : UInt64) : Database α × Bool :=
  let (listeners, found) := db.listeners.remove id
  ({ db with listeners }, found)

/-- Whether the bundle of an owner and a time has been stored. -/
def has (db : Database α) (medallion : Medallion) (timestamp : Timestamp) : Bool :=
  db.tracker.has medallion timestamp

/-- Waits for the bundle of an address. A wait that is fulfilled already is reached at once. -/
def wait (db : Database α) (ticket : Nat) (m : Muid) : Database α :=
  match db.tracker.wait? ticket m.medallion m.timestamp with
  | some tracker => { db with tracker }
  | none => { db with effects := { db.effects with reached := db.effects.reached ++ [ticket] } }

end Database

end GossipStore
