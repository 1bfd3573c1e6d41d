import GossipStore.Bundle.Bundler
import GossipStore.Database.Receive

set_option autoImplicit false

/-! # Writing bundles

A database writes on one chain, which it takes when it first needs one: a chain whose writer is
gone, or else a new one. Timestamps rise along the chain whatever the clock does. -/

namespace GossipStore

namespace Database

variable {α : Type}

/-! ## Taking a chain -/

/-- The first claimed chain whose writer is gone, with its last bundle. -/
def abandonedChain? (s : Surroundings) (db : Database α) : Option (ChainKey × BundleInfo) :=
  db.store.index.claims.findSome? fun c =>
    if s.isAlive c.actor then none else (db.tracker.info? c.chain).map (c.chain, ·)

/-- Records that the database writes a chain. -/
def claim (s : Surroundings) (db : Database α) (chain : ChainKey) : Database α :=
  { db with store := db.store.claimChain chain (db.actor s) }

/-- Starts a chain with a bundle that carries the name of the writer. -/
def startChain (s : Surroundings) (db : Database α) :
    Database α × Except DatabaseError BundleInfo :=
  let medallion := s.medallion db.medallionsUsed
  let (timestamps, start) := db.timestamps.next s.clock
  let db := { db with medallionsUsed := db.medallionsUsed + 1, timestamps }
  match Bundler.new.sealWith ((BundleInfo.first medallion start).withComment (db.identity s)) with
  | .error e => (db, .error (.bundle e))
  | .ok (_, b) =>
    match db.receiveDecoded s b none with
    | (db, .error e) => (db, .error e)
    | (db, .ok info) => (db.claim s ⟨medallion, start⟩, .ok info)

/-- Takes over a chain whose writer is gone, or starts one. The result is its last bundle. -/
def acquireChain (s : Surroundings) (db : Database α) :
    Database α × Except DatabaseError BundleInfo :=
  match db.abandonedChain? s with
  | some (chain, last) => (db.claim s chain, .ok last)
  | none => db.startChain s

/-- The last bundle of the database's own chain, which is taken if there is none yet. -/
def ownChain (s : Surroundings) (db : Database α) :
    Database α × Except DatabaseError BundleInfo :=
  match db.chain with
  | some last => (db, .ok last)
  | none => db.acquireChain s

/-! ## Committing -/

/-- Seals a bundler as the next bundle of the database's chain. The bundler is sealed even if the
store then refuses the bundle. -/
def sealNext (s : Surroundings) (db : Database α) (last : BundleInfo) (b : Bundler) :
    Database α × Bundler × Except DatabaseError BundleInfo :=
  let (timestamps, timestamp) := db.timestamps.nextAfter s.clock last.timestamp
  -- The chain is kept and the timestamp is used up even if sealing fails.
  let db := { db with chain := some last, timestamps }
  match b.sealWith (last.extend timestamp) with
  | .error e => (db, b, .error (.bundle e))
  | .ok (b, bundle) =>
    match db.receiveDecoded s bundle none with
    | (db, .error e) => (db, b, .error e)
    | (db, .ok info) => ({ db with chain := some info }, b, .ok info)

/-- Seals a bundler onto the database's chain, stores the bundle and passes it on. -/
def addBundler (s : Surroundings) (db : Database α) (b : Bundler) :
    Database α × Bundler × Except DatabaseError BundleInfo :=
  match db.ownChain s with
  | (db, .error e) => (db, b, .error e)
  | (db, .ok last) => db.sealNext s last b

end Database

end GossipStore
