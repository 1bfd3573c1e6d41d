import GossipStore.Store.Logged

set_option autoImplicit false

/-! # Stores

A store is an index, in memory alone or with a log in front of it. Both answer questions from the
index; they differ in what they write down and in the bundles that the log refuses. -/

namespace GossipStore

/-- A place where bundles are kept. -/
inductive Store where
  /-- In memory only. -/
  | memory (index : Index)
  /-- In memory and in a log. -/
  | logged (store : LoggedStore)
deriving DecidableEq

namespace Store

instance : Inhabited Store := ⟨memory default⟩

/-- What the store knows. -/
def index : Store → Index
  | memory ix => ix
  | logged s => s.index

/-- The log of the store, if it has one. -/
def log? : Store → Option Log
  | memory _ => none
  | logged s => some s.log

/-- Adds a bundle if it is new, which is the second result. -/
def add (s : Store) (b : Bundle) : Except StoreError (Store × Bool) :=
  match s with
  | memory ix => (ix.add b).map fun r => (memory r.1, r.2)
  | logged l => (l.add b).map fun r => (logged r.1, r.2)

/-- Reads a bundle and adds it if it is new, which is the last result. -/
def addBytes (s : Store) (bytes : Bytes) : Except StoreError (Store × BundleInfo × Bool) := do
  let b ← (Bundle.decode bytes).mapError .decode
  let (s, novel) ← s.add b
  return (s, b.info, novel)

/-- Records that an actor writes a chain. -/
def claimChain (s : Store) (chain : ChainKey) (actor : ActorId) : Store :=
  match s with
  | memory ix => memory (ix.claimChain chain actor)
  | logged l => logged (l.claimChain chain actor)

/-- Deletes what was removed up to a moment, and tells how many removals there were. -/
def dropHistory (s : Store) (container : Option Muid) (before : AsOf) :
    Except StoreError (Store × Nat) :=
  match s with
  | memory ix => (ix.dropHistory container before).map fun r => (memory r.1, r.2)
  | logged l => (l.dropHistory container before).map fun r => (logged r.1, r.2)

/-- Stops keeping history and drops what has been kept. -/
def stopHistory : Store → Store
  | memory ix => memory ix.stopHistory
  | logged l => logged l.stopHistory

/-- Keeps history from now on. -/
def startHistory : Store → Store
  | memory ix => memory ix.startHistory
  | logged l => logged l.startHistory

end Store

end GossipStore
