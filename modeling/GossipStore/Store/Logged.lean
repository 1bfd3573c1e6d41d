import GossipStore.Store.Log

set_option autoImplicit false

/-! # Durable stores

A durable store puts a log in front of an index. A bundle is appended to the log only after the
index has found it new, and applied only after it has been appended, so the log holds exactly the
bundles that the index has accepted. -/

namespace GossipStore

/-- A log and the index that it feeds. -/
structure LoggedStore where
  log : Log
  index : Index
deriving DecidableEq

namespace LoggedStore

/-- Opens a log. -/
def ofLog (log : Log) : Except StoreError LoggedStore := log.replay.map (⟨log, ·⟩)

/-- Adds a bundle if it is new, which is the second result. -/
def add (s : LoggedStore) (b : Bundle) : Except StoreError (LoggedStore × Bool) := do
  if ← s.index.check b.info then
    -- The log comes first: a row that cannot be written must not be known to the index.
    let log ← s.log.appendBundle b
    let (index, novel) ← s.index.add b
    return (⟨log, index⟩, novel)
  else return (s, false)

/-- Records that an actor writes a chain. -/
def claimChain (s : LoggedStore) (chain : ChainKey) (actor : ActorId) : LoggedStore :=
  ⟨s.log.appendClaim ⟨chain, actor⟩, s.index.claimChain chain actor⟩

/-- Drops history from the index. The log still has it. -/
def dropHistory (s : LoggedStore) (container : Option Muid) (before : AsOf) :
    Except StoreError (LoggedStore × Nat) :=
  (s.index.dropHistory container before).map fun r => ({ s with index := r.1 }, r.2)

/-- Stops keeping history, also after the log has been opened again. -/
def stopHistory (s : LoggedStore) : LoggedStore :=
  ⟨s.log.setKeepHistory 0, s.index.stopHistory⟩

/-- Keeps history from now on, also after the log has been opened again. -/
def startHistory (s : LoggedStore) : LoggedStore :=
  ⟨s.log.setKeepHistory 1, s.index.startHistory⟩

end LoggedStore

end GossipStore
