import GossipStore.Hash.Blake3
import GossipStore.Index.Basic
import GossipStore.Text.Hex

set_option autoImplicit false

/-! # Convergence

Two replicas have converged when they hold the same bundles. To tell, they compare how far they
have seen each chain, and then a hash over the bundles in their order. Each bundle enters the hash
with its length in front, so the hashed bytes determine the bundles. -/

namespace GossipStore

/-- A hash over the bundles of a replica. -/
structure StateHash where
  digest : Bytes
deriving DecidableEq, Repr

namespace StateHash

/-- The text form. -/
def text (h : StateHash) : String := Hex.encode h.digest

/-- The short text form. -/
def shortText (h : StateHash) : String := s!"StateHash({Hex.encode (h.digest.take 8)})"

end StateHash

/-! ## What is hashed -/

/-- The bytes that set this hash apart from others. -/
def hashDomain : Bytes := .ofText "gink-state-v0:"

/-- A bundle's contribution: its length in eight bytes and its bytes. -/
def framedBundle (b : Bundle) : Bytes := Bytes.ofNat 8 b.bytes.length ++ b.bytes

/-- The bytes that are hashed for a list of bundles. -/
def hashedBytes (bundles : List Bundle) : Bytes := hashDomain ++ bundles.flatMap framedBundle

/-- The hash of what an index holds. -/
def Index.stateHash (ix : Index) : StateHash := ⟨Blake3.hash (hashedBytes ix.bundleList)⟩

/-! ## Comparing -/

/-- What a comparison of two replicas finds. -/
inductive Comparison where
  | converged
  /-- They have not seen the same chains to the same points. -/
  | chainsDiffer (ours theirs : List GreetingRow)
  /-- They have, but do not hold the same bundles. -/
  | hashesDiffer (ours theirs : StateHash)
deriving DecidableEq, Repr

/-- Compares what two replicas hold. -/
def Index.compareWith (ix other : Index) : Comparison :=
  if ix.chainTracker.rows ≠ other.chainTracker.rows then
    .chainsDiffer ix.chainTracker.rows other.chainTracker.rows
  else if ix.stateHash ≠ other.stateHash then .hashesDiffer ix.stateHash other.stateHash
  else .converged

end GossipStore
