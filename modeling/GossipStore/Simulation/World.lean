import GossipStore.Database.Commit
import GossipStore.Database.Frame
import GossipStore.Simulation.Shelf
import GossipStore.Simulation.Wait

set_option autoImplicit false

/-! # A world of databases

Databases on a network in memory, with a clock that moves only when it is told to or when somebody
waits. Everything happens one step after another, so what a world does is determined by its
steps. -/

namespace GossipStore

/-! ## Nodes -/

/-- What a database is started with. -/
structure NodeSpec where
  kind : StoreKind
  clock : Timestamp
  /-- The first medallion to be given out; the others follow it. -/
  medallion : Medallion
  config : Config
  /-- The actors that no longer run. -/
  dead : List ActorId
  /-- Whether the database is on the network. -/
  attached : Bool
deriving DecidableEq, Repr

/-- A database, or what is left of one, and what belongs to it. -/
structure Node where
  spec : NodeSpec
  /-- The reading of the clock. -/
  clock : Timestamp
  /-- The file, if there is one and the database does not write to it. -/
  file : Option Log
  /-- The database, if it runs. -/
  database? : Option (Database String)
  /-- How many databases were started here, which is the number of the latest. -/
  life : Nat
  /-- The number of the database that owns the mailbox of the node. -/
  mailboxLife : Option Nat

namespace Node

/-- A node that has never run. -/
def new (spec : NodeSpec) : Node := ⟨spec, spec.clock, none, none, 0, none⟩

/-- The place of the store. -/
def slot (n : Node) : StoreSlot := ⟨n.spec.kind, n.file, n.database?.map (·.store)⟩

/-- Puts a store and its file back into their place. Without its store a database ends. -/
def setSlot (n : Node) (slot : StoreSlot) : Node :=
  { n with
    file := slot.file
    database? := slot.store?.bind fun store => n.database?.map fun db => { db with store } }

/-- The number of the database that owns the mailbox, if that runs no longer. -/
def abandonedMailbox? (n : Node) : Option Nat :=
  n.mailboxLife.filter fun life => n.database?.isNone || life ≠ n.life

end Node

/-- A connection that somebody has kept. It keeps the mailbox of its database open. -/
structure HeldConnection where
  /-- The node that made the connection. -/
  node : PeerId
  /-- The number of its database. -/
  life : Nat
  /-- The number of the connection while the database runs, and then what is left of it. -/
  connection : Nat ⊕ Peer

/-! ## The world -/

/-- A listener that was called. -/
structure Event where
  node : PeerId
  label : String
  bundle : Bundle
deriving DecidableEq

/-- Databases on a network. -/
structure World where
  /-- The time in milliseconds. -/
  now : Nat
  network : Network
  nodes : SortedMap PeerId Node
  waits : Waits
  /-- Connections kept under names. -/
  held : List (String × HeldConnection)
  /-- Bundlers kept under names. -/
  kept : List (String × Bundler)
  /-- The listeners called, in order, since somebody last asked. -/
  events : List Event

namespace World

/-- A world without databases, with mailboxes for replicas that are driven by hand. -/
def ofMailboxes (ids : List PeerId) : World where
  now := 0
  network := ids.foldl Network.create .empty
  nodes := .empty
  waits := []
  held := []
  kept := []
  events := []

/-- The database of a node. -/
def database? (w : World) (id : PeerId) : Option (Database String) :=
  (w.nodes.get? id).bind (·.database?)

/-- Changes a node, if there is one. -/
def adjustNode (w : World) (id : PeerId) (f : Node → Node) : World :=
  match w.nodes.get? id with
  | none => w
  | some n => { w with nodes := w.nodes.insert id (f n) }

/-! ## What a database sees of the world -/

/-- What the world looks like to a node. -/
def surroundings (w : World) (n : Node) : Surroundings where
  now := w.now
  clock := n.clock
  link := w.network.link
  medallion k := n.spec.medallion + Int64.ofNat k
  isAlive actor := !n.spec.dead.contains actor
  environment := ⟨none, none, none⟩
  process := 0

/-- Ends the waits whose time is up. -/
def settleWaits (w : World) : World :=
  let due := w.waits.due w.now
  let close (n : Node) : Node :=
    { n with database? := n.database?.map fun db =>
        { db with tracker := due.foldl .closeWait db.tracker } }
  { w with
    waits := w.waits.expire w.now
    nodes := w.nodes.toList.foldl (fun m e => m.insert e.1 (close e.2)) w.nodes }

/-- Moves the time on to a later one. -/
def moveTo (w : World) (now : Nat) : World := { w with now := max w.now now }.settleWaits

/-- Lets time pass. -/
def advance (w : World) (ms : Nat) : World := w.moveTo (w.now + ms)

/-- Puts a database back and carries out what it has done to the outside. -/
def putDatabase (w : World) (id : PeerId) (n : Node) (db : Database String) : World :=
  let (db, effects) := db.takeEffects
  { w with
    network := effects.sent.foldl
      (fun net e => net.deliver e.1 ⟨id, e.2.encode⟩) w.network
    nodes := w.nodes.insert id { n with database? := some db }
    waits := w.waits.fulfil effects.reached
    events := w.events ++ effects.called.map fun e => ⟨id, e.1, e.2⟩ }

/-- Takes out the events. -/
def takeEvents (w : World) : World × List Event := ({ w with events := [] }, w.events)

/-! ## Connections that are kept -/

/-- A connection that was kept under a name. -/
def held? (w : World) (name : String) : Option Peer :=
  (w.held.lookup name).bind fun h => match h.connection with
    | .inl serial => (w.database? h.node).bind (·.connection? serial)
    | .inr peer => some peer

/-- Closes the mailbox of a node once its owner is gone and no connection keeps it open. -/
def closeMailbox (w : World) (id : PeerId) : World :=
  match (w.nodes.get? id).bind (·.abandonedMailbox?) with
  | none => w
  | some life =>
    if w.held.any fun e => e.2.node = id && e.2.life = life then w
    else { w with network := w.network.leave id }

/-- Keeps the connection of a node to a replica under a name, in place of an earlier one. -/
def keepConnection (w : World) (id peer : PeerId) (name : String) : World :=
  match w.nodes.get? id, ((w.database? id).bind (·.peers.get? peer)).map (·.serial) with
  | some n, some serial =>
    let held := (name, ⟨id, n.life, .inl serial⟩) :: w.held.filter (·.1 ≠ name)
    let w' := { w with held }
    (w.held.lookup name).elim w' fun former => w'.closeMailbox former.node
  | _, _ => w

/-! ## Starting nodes -/

/-- Notes that a node could not be started. -/
def fail (w : World) (id : PeerId) (n : Node) : World :=
  { w with nodes := w.nodes.insert id n }

/-- Starts a node on an open store. -/
def start (w : World) (id : PeerId) (n : Node) (store : Store) : World :=
  let life := n.life + 1
  let db := Database.ofStore store n.spec.config n.spec.attached
  let mailboxLife := if n.spec.attached then some life else n.mailboxLife
  { w with
    network := if n.spec.attached then w.network.create id else w.network
    nodes := w.nodes.insert id { n with database? := some db, life, mailboxLife } }

/-- What is left of the kept connections of a node when its database ends. -/
def pastHeld (w : World) (id : PeerId) : List (String × HeldConnection) :=
  w.held.map fun e =>
    if e.2.node = id then
      (e.1, { e.2 with connection := (w.held? e.1).elim e.2.connection .inr })
    else e

/-- Stops a node, which ends all waits. What is left keeps the file, and the connections that
somebody has kept stay as they are. -/
def stop (w : World) (id : PeerId) (spec : NodeSpec) : World × Node :=
  match w.nodes.get? id with
  | none => (w, .new spec)
  | some n =>
    let rest := { n with spec, clock := spec.clock, file := n.slot.file?, database? := none }
    ({ w with
      nodes := w.nodes.insert id rest
      waits := w.waits.cancelAll
      held := w.pastHeld id }.closeMailbox id, rest)

/-! ## Single operations of a database -/

/-- Runs an operation of a database, if it runs. -/
def act {β : Type} (w : World) (id : PeerId)
    (f : Surroundings → Database String → Database String × β) : Option (World × β) := do
  let n ← w.nodes.get? id
  let db ← n.database?
  let (db, result) := f (w.surroundings n) db
  return (w.putDatabase id n db, result)

/-- Adds changes to a bundler, from first to last. -/
def addChanges (b : Bundler) : List Change → Except BundleError Bundler
  | [] => .ok b
  | c :: rest => do addChanges (← b.addChange c).1 rest

/-- Takes out a bundler that was kept under a name. -/
def takeBundler (w : World) (name : String) : World × Option Bundler :=
  ({ w with kept := w.kept.filter (·.1 ≠ name) }, w.kept.lookup name)

/-- Keeps a bundler under a name, in place of an earlier one. -/
def keepBundler (w : World) (name : String) (b : Bundler) : World :=
  { w with kept := (name, b) :: w.kept.filter (·.1 ≠ name) }

/-- Starts a wait and hands out its ticket. -/
def wait (w : World) (id : PeerId) (m : Muid) (timeout : Option Nat) : Option (World × Nat) := do
  let ticket := w.waits.length
  -- The wait is listed before the tracker may declare it fulfilled.
  let w := { w with waits := w.waits.start m.medallion m.timestamp w.now timeout }
  let (w, _) ← w.act id fun _ db => (db.wait ticket m, ())
  return (w.settleWaits, ticket)

/-- How a wait stands. A result that is found is taken. -/
def takeWait (w : World) (ticket : Nat) : World × WaitState :=
  let (waits, state) := w.waits.take ticket
  ({ w with waits }, state)

/-! ## Operations that receive or wait -/

/-- Runs an operation that takes frames out of a node's mailbox. -/
def actOnMailbox {β : Type} (w : World) (id : PeerId)
    (f : Surroundings → Database String → Network → Database String × Network × β) :
    Option (World × β) := do
  let n ← w.nodes.get? id
  let db ← n.database?
  let (db, net, result) := f (w.surroundings n) db w.network
  return ({ w with network := net }.putDatabase id n db, result)

/-- Lets a node handle its frames until none has come for a time, and counts them. -/
def poll (w : World) (id : PeerId) (idle : Nat) :
    Option (World × Except DatabaseError Nat) := do
  let (w, result) ← w.actOnMailbox id fun s db net => db.poll id s net
  return (match result with | .ok _ => w.advance idle | .error _ => w, result)

/-- Lets a node run for a time. -/
def run (w : World) (id : PeerId) (span : Nat) : Option (World × Except DatabaseError Unit) := do
  let (w, result) ← w.actOnMailbox id fun s db net => db.run id s span net
  return (match result with | .ok _ => w.advance span | .error _ => w, result)

/-- Waits until a peer of a node has greeted. -/
def awaitReady (w : World) (id peer : PeerId) :
    Option (World × Option (Except GossipError Unit)) := do
  let db ← w.database? id
  match db.peers.get? peer with
  | none => return (w, none)
  | some p =>
    let w := w.moveTo (p.settledAt w.now)
    let p := p.expire w.now
    let (w, _) ← w.act id fun _ db => (db.setPeer p, ())
    return (w, some p.readiness)

/-- How many frames a node handled in a round, or that it failed. -/
def pollCount (w : World) (id : PeerId) : World × Option Nat :=
  match w.poll id 0 with
  | some (w, .ok n) => (w, some n)
  | some (w, .error _) => (w, none)
  | none => (w, none)

/-- Lets nodes handle their frames, one after another. -/
def round (w : World) : List PeerId → World × List (Option Nat)
  | [] => (w, [])
  | id :: rest =>
    let (w, count) := w.pollCount id
    let (w, counts) := w.round rest
    (w, count :: counts)

/-- Goes round the nodes until in a round none handles a frame, at most a number of times. -/
def settle (w : World) (ids : List PeerId) : (limit : Nat) → World × List (List (Option Nat))
  | 0 => (w, [])
  | limit + 1 =>
    let (w, counts) := w.round ids
    if counts.all fun c => c.all (· = 0) then (w, [counts])
    else
      let (w, rounds) := w.settle ids limit
      (w, counts :: rounds)

/-! ## Replicas driven by hand -/

/-- Sends a frame from a mailbox. -/
def rawSend (w : World) (sender recipient : PeerId) (frame : Bytes) :
    World × Except GossipError Unit :=
  match w.network.send sender recipient frame with
  | .ok network => ({ w with network }, .ok ())
  | .error e => (w, .error e)

/-- Takes all frames out of a mailbox. -/
def rawReceive (w : World) (id : PeerId) : World × List Envelope :=
  let network := w.network.adjust id fun box => { box with queue := box.queue.map fun _ => [] }
  ({ w with network }, w.network.waiting id)

end World

end GossipStore
