import GossipStore.Bundle.Bundler

set_option autoImplicit false

/-! # Writing one chain

A chain writer seals bundlers one after another onto a single chain. The first bundle starts the
chain and carries the writer's identity; a failed seal changes nothing. -/

namespace GossipStore

/-- The state of a chain that is being written. -/
structure ChainWriter where
  medallion : Medallion
  /-- The comment of the first bundle. -/
  identity : Option String
  last : Option BundleInfo
  nextTimestamp : Timestamp
deriving DecidableEq, Repr

namespace ChainWriter

/-- The distance between bundles that are sealed without an explicit timestamp. -/
def step : Timestamp := 10

/-- A writer whose first bundle will have the given timestamp. -/
def new (medallion : Medallion) (start : Timestamp) (identity : Option String) : ChainWriter :=
  ⟨medallion, identity, none, start⟩

/-- The metadata of the next bundle. -/
def nextInfo (w : ChainWriter) (timestamp : Timestamp) : BundleInfo :=
  match w.last with
  | none => { BundleInfo.first w.medallion timestamp with comment := w.identity }
  | some last => last.extend timestamp

/-- Seals a bundler at an explicit timestamp. -/
def sealAt (w : ChainWriter) (timestamp : Timestamp) (b : Bundler) :
    Except BundleError (ChainWriter × Bundle) := do
  let (_, bundle) ← b.sealWith (w.nextInfo timestamp)
  return ({ w with last := some bundle.info, nextTimestamp := timestamp + step }, bundle)

/-- Seals a bundler at the next timestamp. -/
def sealNext (w : ChainWriter) (b : Bundler) : Except BundleError (ChainWriter × Bundle) :=
  w.sealAt w.nextTimestamp b

/-- Seals a run of bundles without changes, up to the first failure. -/
def sealEmpties (w : ChainWriter) : Nat → ChainWriter × Except BundleError (List Bundle)
  | 0 => (w, .ok [])
  | count + 1 =>
    match w.sealNext .new with
    | .error e => (w, .error e)
    | .ok (w', bundle) =>
      let (w'', rest) := w'.sealEmpties count
      (w'', rest.map (bundle :: ·))

end ChainWriter

end GossipStore
